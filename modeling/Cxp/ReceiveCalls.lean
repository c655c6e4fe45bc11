import Cxp.SchedulerTally

/-!
# `receive` under the scheduler (`interrupt.c`, `sched.c`)

Any number of processes call `receive`, again and again, on any interrupts of their
processors, beside everything else that processes do under the scheduler.  A call
prepares to wait, stores the process in the slot of the interrupt, and goes through
`relinquish`; the interrupts may fire wherever they are enabled.

* The handler of a user interrupt empties the slot and makes ready the process that
  it has found there; nothing else happens on the processor meanwhile.
* Nobody else knows a process in `receive`: it is not woken through a channel or by
  a timer (`admits`).

A slot holds one process.  A store to a slot that is not empty orphans the process
there, and otherwise nobody is orphaned (`recorded_iff`).  Whoever is made ready
goes on, as long as nobody in its window is both preempted and scheduled
(`receivers_not_orphaned`).
-/

namespace Cxp

open Run

/-- Where a process stands in `receive`. -/
inductive ReceivePc
  /-- it has prepared to wait -/
  | prepared
  /-- it is stored in the slot, and in `relinquish` -/
  | announced
  /-- a transmit has found it, and it is in `relinquish` still -/
  | transmitted
  deriving DecidableEq

/-- A call of `receive(intr_no)`. -/
structure ReceiveCall where
  intr_no : Nat
  pc : ReceivePc

/-- The scheduler; the slots of the interrupts; the interrupt that a processor is
about to transmit; and the calls under way. -/
structure Receives (N U : Nat) where
  sched : Sched N U
  waiting : Fin U → Nat → Option (Fin N)
  firing : Fin U → Nat
  call : Fin N → Option ReceiveCall

/-- One step. -/
inductive ReceiveAct (N U : Nat)
  /-- a process that is in no call, or in `relinquish`, or a handler goes on -/
  | sched (act : SchedAct N U)
  /-- the process calls `receive`, and prepares to wait -/
  | receive (p : Fin N) (intr_no : Nat)
  /-- it stores itself in the slot -/
  | announce (p : Fin N)
  /-- the user interrupt fires -/
  | fires (π : Fin U) (intr_no : Nat)
  /-- the handler calls `transmit` -/
  | transmit (π : Fin U)

namespace Receives

variable {N U : Nat}

/-- What goes on beside the calls, and `relinquish` in them. -/
def admits (m : Receives N U) : SchedAct N U → Bool
  | .run p => (m.call p).all fun c => c.pc ≠ .prepared
  | .interrupt _ .user => false
  | .handle π => !decide (m.sched.Inside π .user)
  | .freeProcess π q => !decide (m.sched.Inside π .user) && (m.call q).isNone
  | act => (List.finRange N).all fun p => (m.call p).isNone || act.spares p

/-- The call ends when `relinquish` has returned. -/
def follow (m : Receives N U) (act : SchedAct N U) (s : Sched N U) : Receives N U :=
  match act with
  | .run p =>
      { m with
        sched := s
        call := if (s.live p).code = .own then Function.update m.call p none else m.call }
  | _ => { m with sched := s }

/-- The slot of an interrupt is written. -/
def store (m : Receives N U) (π : Fin U) (intr_no : Nat) (proc : Option (Fin N)) :
    Receives N U :=
  { m with
    waiting := Function.update m.waiting π (Function.update (m.waiting π) intr_no proc) }

/-- Process `p` goes on in its call. -/
def goes (m : Receives N U) (p : Fin N) (c : ReceiveCall) : Receives N U :=
  { m with call := Function.update m.call p (some c) }

/-- `transmit`. -/
def transmit (sys : Procs N U) (m : Receives N U) (π : Fin U) : Option (Receives N U) :=
  let intr_no := m.firing π
  match m.waiting π intr_no with
  | some receiver =>
      (m.sched.step sys (.freeProcess π receiver)).map fun s =>
        ({ m with sched := s }.store π intr_no none).goes receiver ⟨intr_no, .transmitted⟩
  | none => (m.sched.step sys (.handle π)).map fun s => { m with sched := s }

/-- One step of the system. -/
def step (sys : Procs N U) (m : Receives N U) : ReceiveAct N U → Option (Receives N U)
  | .sched act => if m.admits act then (m.sched.step sys act).map (m.follow act) else none
  | .receive p intr_no =>
      if (m.call p).isNone then
        (m.sched.step sys (.prepare p)).map fun s =>
          { m with sched := s }.goes p ⟨intr_no, .prepared⟩
      else none
  | .announce p =>
      if m.sched.Runs sys p then
        (m.call p).bind fun c =>
          if c.pc = .prepared then
            some ((m.store (sys.pun p) c.intr_no (some p)).goes p { c with pc := .announced })
          else none
      else none
  | .fires π intr_no =>
      (m.sched.step sys (.interrupt π .user)).map fun s =>
        { m with
          sched := s
          firing := Function.update m.firing π intr_no }
  | .transmit π => if m.sched.Inside π .user then m.transmit sys π else none

/-- After `initialize`. -/
def init (sys : Procs N U) : Receives N U where
  sched := Sched.init sys
  waiting := fun _ _ => none
  firing := fun _ => 0
  call := fun _ => none

/-- Who has announced itself, and has not been found by a transmit, is in the slot of
its interrupt; and nobody is Waiting in `receive` who is in no slot, linked or not. -/
structure Recorded (sys : Procs N U) (m : Receives N U) : Prop where
  announced : ∀ p c, m.call p = some c → c.pc = .announced →
    m.waiting (sys.pun p) c.intr_no = some p
  waiting : ∀ p, m.call p ≠ none → m.sched.sched_state p = .waiting →
    ∃ π intr_no, m.waiting π intr_no = some p

/-- Moreover who has been found by a transmit is Ready, and has the processor or is in
one place of one queue; and a transmit finds nobody whom one has found before. -/
structure NotOrphaned (sys : Procs N U) (m : Receives N U) : Prop extends
    Recorded sys m where
  ready : ∀ p c, m.call p = some c → c.pc = .transmitted → m.sched.sched_state p = .ready
  once : ∀ p c, m.call p = some c → c.pc = .transmitted →
    m.sched.current (sys.pun p) = p ∨ m.sched.places p = 1
  found : ∀ π intr_no p, m.waiting π intr_no = some p →
    m.call p = some ⟨intr_no, .announced⟩

/-- The condition on a store: the slot is empty. -/
def FindsEmpty (sys : Procs N U) (m : Receives N U) : ReceiveAct N U → Prop
  | .announce p => ∀ c, m.call p = some c → m.waiting (sys.pun p) c.intr_no = none
  | _ => True

/-- What the step is for the scheduler. -/
def does (m : Receives N U) : ReceiveAct N U → Option (SchedAct N U)
  | .sched act => some act
  | .receive p _ => some (.prepare p)
  | .announce _ => none
  | .fires π _ => some (.interrupt π .user)
  | .transmit π =>
      match m.waiting π (m.firing π) with
      | some receiver => some (.freeProcess π receiver)
      | none => some (.handle π)

/-- The condition on a step: the slot is empty at a store, and nobody in its window is
both preempted and scheduled. -/
def InOrder (sys : Procs N U) (m : Receives N U) (act : ReceiveAct N U) : Prop :=
  m.FindsEmpty sys act ∧ ∀ a, m.does act = some a → m.sched.Orderly sys a

section Invariant

/-- Where a process stands in its call. -/
def Place (sys : Procs N U) (m : Receives N U) (p : Fin N) (c : ReceiveCall) : Prop :=
  match c.pc with
  | .prepared =>
      (m.sched.live p).code = .prepared ∧ m.sched.sched_state p = .preparingToWait
  | .announced =>
      (m.sched.live p).code.waits = true ∧ m.sched.sched_state p ≠ .ready ∧
        m.waiting (sys.pun p) c.intr_no = some p
  | .transmitted =>
      (m.sched.live p).code.waits = true ∧ m.sched.sched_state p = .ready

/-- What holds of a call that is under way. -/
structure InCall (sys : Procs N U) (m : Receives N U) (p : Fin N) (c : ReceiveCall) : Prop where
  op : (m.sched.live p).op = .none
  place : m.Place sys p c

/-- The invariant of the runs in which every store finds the slot empty. -/
structure Kept (sys : Procs N U) (m : Receives N U) : Prop where
  tally : m.sched.Tally sys
  calls : ∀ p c, m.call p = some c → m.InCall sys p c
  slots : ∀ π intr_no p, m.waiting π intr_no = some p →
    sys.pun p = π ∧ m.call p = some ⟨intr_no, .announced⟩

/-- What a step leaves alone of a process. -/
structure Keeps (sys : Procs N U) (m n : Receives N U) (x : Fin N) : Prop where
  stands : ∀ c, m.call x = some c →
    Sched.Stands m.sched n.sched x ∧ n.sched.sched_state x = m.sched.sched_state x
  call : n.call x = m.call x
  waiting : ∀ intr_no, m.waiting (sys.pun x) intr_no = some x →
    n.waiting (sys.pun x) intr_no = some x

variable {sys : Procs N U} {m n : Receives N U} {π : Fin U} {p x : Fin N} {c : ReceiveCall}
  {act : SchedAct N U} {t : Sched N U}

theorem InCall.waits (h : m.InCall sys p c) : (m.sched.live p).code.waits = true := by
  have hplace := h.place
  unfold Place at hplace
  cases hpc : c.pc with
  | prepared =>
      rw [hpc] at hplace
      rw [hplace.1]
      rfl
  | announced =>
      rw [hpc] at hplace
      exact hplace.1
  | transmitted =>
      rw [hpc] at hplace
      exact hplace.1

theorem InCall.keeps (h : m.InCall sys x c) (hk : Keeps sys m n x) (hcall : m.call x = some c) :
    n.InCall sys x c := by
  obtain ⟨⟨hcode, hop⟩, hstate⟩ := hk.stands c hcall
  refine ⟨hop.trans h.op, ?_⟩
  have hplace := h.place
  unfold Place at hplace ⊢
  rw [hcode, hstate]
  cases hpc : c.pc with
  | prepared =>
      rw [hpc] at hplace
      exact hplace
  | announced =>
      rw [hpc] at hplace
      exact ⟨hplace.1, hplace.2.1, hk.waiting c.intr_no hplace.2.2⟩
  | transmitted =>
      rw [hpc] at hplace
      exact hplace

/-- The invariant after a step: some processes are left alone, of the others it is
shown anew. -/
theorem Kept.next (h : Kept sys m) (htally : n.sched.Tally sys)
    (hslots : ∀ π intr_no p, n.waiting π intr_no = some p →
      sys.pun p = π ∧ n.call p = some ⟨intr_no, .announced⟩)
    (heach : ∀ x, Keeps sys m n x ∨ ∀ c, n.call x = some c → n.InCall sys x c) :
    Kept sys n where
  tally := htally
  slots := hslots
  calls x c hc := by
    obtain hk | hnew := heach x
    · have hcall : m.call x = some c := hk.call.symm.trans hc
      exact (h.calls x c hcall).keeps hk hcall
    · exact hnew c hc

theorem kept_init (sys : Procs N U) : Kept sys (init sys) := by
  refine ⟨Sched.tally_init sys, ?_, ?_⟩
  · intro p c hc
    cases hc
  · intro π intr_no p hp
    cases hp

theorem Kept.recorded (h : Kept sys m) : Recorded sys m := by
  constructor
  · intro p c hcall hpc
    have hplace := (h.calls p c hcall).place
    unfold Place at hplace
    rw [hpc] at hplace
    exact hplace.2.2
  · intro p hcall hstate
    obtain ⟨c, hc⟩ := Option.ne_none_iff_exists'.mp hcall
    have hplace := (h.calls p c hc).place
    unfold Place at hplace
    cases hpc : c.pc with
    | prepared =>
        rw [hpc] at hplace
        rw [hplace.2] at hstate
        cases hstate
    | announced =>
        rw [hpc] at hplace
        exact ⟨_, _, hplace.2.2⟩
    | transmitted =>
        rw [hpc] at hplace
        rw [hplace.2] at hstate
        cases hstate

/-- **Nobody else touches a process in a call.** -/
theorem admits_spares (hadm : m.admits act = true) (hcall : m.call x = some c)
    (hrun : act ≠ .run x) : act.spares x = true := by
  have hall : (List.finRange N).all (fun p => (m.call p).isNone || act.spares p) = true →
      act.spares x = true := by
    intro hall
    have hx := List.all_eq_true.mp hall x (List.mem_finRange x)
    simpa [hcall] using hx
  cases act with
  | run p =>
      have hne : p ≠ x := by
        intro heq
        exact hrun (heq ▸ rfl)
      simpa [SchedAct.spares, SchedAct.actor, SchedAct.marks] using hne
  | interrupt ρ i => rfl
  | handle ρ => rfl
  | freeProcess ρ q =>
      have hq : q ≠ x := by
        intro heq
        have hnone := (Bool.and_eq_true_iff.mp hadm).2
        rw [heq, hcall] at hnone
        cases hnone
      simpa [SchedAct.spares, SchedAct.actor, SchedAct.marks] using hq
  | prepare _ | select _ | found _ | par _ _ _ | build _ _ | wake _ _ | free _ _ | yield _
  | sync _ | freeAlting _ _ => exact hall hadm

/-- What a step of the scheduler leaves alone. -/
theorem Kept.keeps (h : Kept sys m) (act : SchedAct N U)
    (hstep : m.sched.step sys act = some n.sched)
    (hspares : ∀ c, m.call x = some c → act.spares x = true) (hcall : n.call x = m.call x)
    (hwaiting : ∀ intr_no, m.waiting (sys.pun x) intr_no = some x →
      n.waiting (sys.pun x) intr_no = some x) : Keeps sys m n x where
  stands c hc := h.tally.settled.spared hstep (hspares c hc)
  call := hcall
  waiting := hwaiting

end Invariant

section Steps

variable {sys : Procs N U} {m n : Receives N U} {π : Fin U} {p x : Fin N} {c : ReceiveCall}
  {act : SchedAct N U} {t : Sched N U}

theorem follow_sched (act : SchedAct N U) (t : Sched N U) : (m.follow act t).sched = t := by
  cases act <;> rfl

theorem follow_waiting (act : SchedAct N U) (t : Sched N U) :
    (m.follow act t).waiting = m.waiting := by
  cases act <;> rfl

theorem follow_call (hact : act ≠ .run x ∨ (t.live x).code ≠ .own) :
    (m.follow act t).call x = m.call x := by
  cases act with
  | run p =>
      simp only [follow]
      split
      next hown =>
        have hx : x ≠ p := by
          intro heq
          subst heq
          exact hact.elim (fun hne => hne rfl) fun hne => hne hown
        exact Function.update_of_ne hx _ _
      next => rfl
  | _ => rfl

/-- Whoever is in `relinquish` for a call goes on with it, or the call ends; then its
process has been made ready. -/
theorem Kept.follows_run (h : Kept sys m) (hcall : m.call x = some c) (hpc : c.pc ≠ .prepared)
    (hstep : m.sched.step sys (.run x) = some t) :
    (t.live x).code ≠ .own ∧ (m.follow (.run x) t).InCall sys x c ∨
      (m.follow (.run x) t).call x = none ∧ m.sched.sched_state x = .ready := by
  have hin := h.calls x c hcall
  obtain ⟨hop, ⟨hwaits, hready⟩ | ⟨hown, hready⟩⟩ := h.tally.run_waits hin.op hin.waits hstep
  · have hne : (t.live x).code ≠ .own := by
      intro heq
      rw [heq] at hwaits
      cases hwaits
    refine Or.inl ⟨hne, hop, ?_⟩
    have hplace := hin.place
    unfold Place at hplace ⊢
    rw [follow_sched, follow_waiting]
    cases hcpc : c.pc with
    | prepared => exact absurd hcpc hpc
    | announced =>
        rw [hcpc] at hplace
        exact ⟨hwaits, fun heq => hplace.2.1 (hready.mp heq), hplace.2.2⟩
    | transmitted =>
        rw [hcpc] at hplace
        exact ⟨hwaits, hready.mpr hplace.2⟩
  · right
    simp only [follow, if_pos hown, Function.update_self]
    exact ⟨trivial, hready⟩

/-- What the scheduler does keeps the invariant. -/
theorem Kept.follows (h : Kept sys m) (hadm : m.admits act = true)
    (hstep : m.sched.step sys act = some t) : Kept sys (m.follow act t) := by
  have hpc : ∀ x c, act = .run x → m.call x = some c → c.pc ≠ .prepared := by
    intro x c heq hcall
    subst heq
    change (m.call x).all _ = true at hadm
    rw [hcall] at hadm
    exact of_decide_eq_true hadm
  refine h.next ?_ ?_ ?_
  · rw [follow_sched]
    exact h.tally.step hstep
  · rw [follow_waiting]
    intro π intr_no p hp
    obtain ⟨hpun, hcall⟩ := h.slots π intr_no p hp
    refine ⟨hpun, ?_⟩
    rw [← hcall]
    apply follow_call
    by_cases hrun : act = .run p
    · subst hrun
      right
      obtain ⟨hne, -⟩ | ⟨-, hready⟩ := h.follows_run hcall (hpc p _ rfl hcall) hstep
      · exact hne
      · -- who is in a slot has not been made ready
        have hplace := (h.calls p _ hcall).place
        exact absurd hready hplace.2.1
    · exact Or.inl hrun
  · intro x
    by_cases hrun : act = .run x ∧ ∃ c, m.call x = some c
    · obtain ⟨rfl, c, hcall⟩ := hrun
      right
      intro c' hc'
      obtain ⟨hne, hin⟩ | ⟨hnone, -⟩ := h.follows_run hcall (hpc x c rfl hcall) hstep
      · rw [follow_call (Or.inr hne), hcall] at hc'
        obtain rfl := Option.some.inj hc'
        exact hin
      · rw [hnone] at hc'
        cases hc'
    · left
      apply h.keeps act
      · rw [follow_sched]
        exact hstep
      · intro c hcall
        apply admits_spares hadm hcall
        intro heq
        exact hrun ⟨heq, c, hcall⟩
      · by_cases heq : act = .run x
        · have hnone : m.call x = none := by
            cases hc : m.call x with
            | none => rfl
            | some c => exact absurd ⟨heq, c, hc⟩ hrun
          rw [heq, hnone]
          simp only [follow]
          split
          · exact Function.update_self _ _ _
          · exact hnone
        · exact follow_call (Or.inl heq)
      · rw [follow_waiting]
        exact fun _ hw => hw

/-- What concerns no process in particular. -/
theorem Kept.passes (h : Kept sys m) (hstep : m.sched.step sys act = some n.sched)
    (hspares : ∀ x, act.spares x = true) (hcall : n.call = m.call)
    (hwaiting : n.waiting = m.waiting) : Kept sys n := by
  refine h.next (h.tally.step hstep) ?_ ?_
  · rw [hwaiting, hcall]
    exact h.slots
  · intro x
    left
    apply h.keeps act hstep
    · exact fun _ _ => hspares x
    · rw [hcall]
    · rw [hwaiting]
      exact fun _ hw => hw

theorem goes_call (m : Receives N U) (p : Fin N) (c : ReceiveCall) :
    (m.goes p c).call p = some c :=
  Function.update_self _ _ _

theorem goes_call_of_ne (c : ReceiveCall) (hx : x ≠ p) : (m.goes p c).call x = m.call x :=
  Function.update_of_ne hx _ _

theorem store_waiting (m : Receives N U) (π ρ : Fin U) (i j : Nat) (proc : Option (Fin N)) :
    (m.store π i proc).waiting ρ j = if ρ = π ∧ j = i then proc else m.waiting ρ j := by
  by_cases hρ : ρ = π
  · by_cases hj : j = i
    · simp [store, hρ, hj]
    · simp [store, hρ, hj]
  · simp [store, hρ]

theorem Kept.receives (h : Kept sys m) {intr_no : Nat} (hcall : m.call p = none)
    (hstep : m.sched.step sys (.prepare p) = some t) :
    Kept sys ({ m with sched := t }.goes p ⟨intr_no, .prepared⟩) := by
  refine h.next (h.tally.step hstep) ?_ ?_
  · intro π i x hx
    obtain ⟨hpun, hc⟩ := h.slots π i x hx
    have hne : x ≠ p := by
      intro heq
      rw [heq, hcall] at hc
      cases hc
    exact ⟨hpun, (goes_call_of_ne _ hne).trans hc⟩
  · intro x
    by_cases hx : x = p
    · right
      subst hx
      intro c hc
      rw [goes_call] at hc
      obtain rfl := Option.some.inj hc
      cases Sched.step_cases hstep with
      | prepare hmay =>
          refine ⟨?_, ?_, ?_⟩
          · simp [goes, Sched.goto, hmay.2.1]
          · simp [goes, Sched.goto]
          · simp [goes, Sched.goto]
    · left
      apply h.keeps (.prepare p) hstep
      · intro _ _
        simpa [SchedAct.spares, SchedAct.actor, SchedAct.marks] using Ne.symm hx
      · exact goes_call_of_ne _ hx
      · exact fun _ hw => hw

/-- A store to an empty slot. -/
theorem Kept.announces (h : Kept sys m) (hcall : m.call p = some c) (hpc : c.pc = .prepared)
    (hempty : m.waiting (sys.pun p) c.intr_no = none) :
    Kept sys ((m.store (sys.pun p) c.intr_no (some p)).goes p { c with pc := .announced }) := by
  have hin := h.calls p c hcall
  have hplace := hin.place
  unfold Place at hplace
  rw [hpc] at hplace
  refine h.next h.tally ?_ ?_
  · intro π i x hx
    change (m.store (sys.pun p) c.intr_no (some p)).waiting π i = some x at hx
    rw [store_waiting] at hx
    split at hx
    next hslot =>
      obtain rfl := Option.some.inj hx
      rw [hslot.1, hslot.2]
      exact ⟨rfl, goes_call _ _ _⟩
    next =>
      obtain ⟨hpun, hc⟩ := h.slots π i x hx
      have hne : x ≠ p := by
        intro heq
        rw [heq, hcall] at hc
        obtain rfl := Option.some.inj hc
        cases hpc
      exact ⟨hpun, (goes_call_of_ne _ hne).trans hc⟩
  · intro x
    by_cases hx : x = p
    · right
      subst hx
      intro c' hc'
      rw [goes_call] at hc'
      obtain rfl := Option.some.inj hc'
      refine ⟨hin.op, ?_, ?_, ?_⟩
      · change (m.sched.live x).code.waits = true
        rw [hplace.1]
        rfl
      · change m.sched.sched_state x ≠ .ready
        rw [hplace.2]
        simp
      · change (m.store (sys.pun x) c.intr_no (some x)).waiting _ _ = _
        rw [store_waiting, if_pos ⟨rfl, rfl⟩]
    · left
      refine ⟨fun _ _ => ⟨Sched.Stands.refl _ x, rfl⟩, goes_call_of_ne _ hx, ?_⟩
      intro i hw
      change (m.store (sys.pun p) c.intr_no (some p)).waiting _ _ = _
      rw [store_waiting]
      split
      next hslot =>
        rw [hslot.1, hslot.2, hempty] at hw
        cases hw
      next => exact hw

/-- A transmit that finds a receiver. -/
theorem Kept.finds (h : Kept sys m) {i : Nat} {receiver : Fin N}
    (hslot : m.waiting π i = some receiver)
    (hstep : m.sched.step sys (.freeProcess π receiver) = some t) :
    Kept sys (({ m with sched := t }.store π i none).goes receiver ⟨i, .transmitted⟩) := by
  obtain ⟨hpun, hcall⟩ := h.slots π i receiver hslot
  have hin := h.calls receiver _ hcall
  have hlost : ∀ ρ j x, (m.store π i none).waiting ρ j = some x → x ≠ receiver ∧
      m.waiting ρ j = some x := by
    intro ρ j x hx
    rw [store_waiting] at hx
    split at hx
    next => cases hx
    next hne =>
      refine ⟨fun heq => hne ?_, hx⟩
      obtain ⟨hpun', hcall'⟩ := h.slots ρ j x hx
      rw [heq] at hpun' hcall'
      rw [hcall] at hcall'
      cases hcall'
      exact ⟨hpun'.symm.trans hpun, rfl⟩
  refine h.next (h.tally.step hstep) ?_ ?_
  · intro ρ j x hx
    obtain ⟨hne, hold⟩ := hlost ρ j x hx
    obtain ⟨hpun', hc⟩ := h.slots ρ j x hold
    exact ⟨hpun', (goes_call_of_ne _ hne).trans hc⟩
  · intro x
    by_cases hx : x = receiver
    · right
      subst hx
      intro c hc
      rw [goes_call] at hc
      obtain rfl := Option.some.inj hc
      obtain ⟨hcode, hop⟩ := h.tally.settled.others (x := x) hstep (by simp [SchedAct.actor])
        (by simp)
      refine ⟨hop.trans hin.op, ?_, ?_⟩
      · change (t.live x).code.waits = true
        rw [hcode]
        exact hin.waits
      · exact Sched.step_freeProcess_ready hstep
    · left
      apply h.keeps (.freeProcess π receiver) hstep
      · intro _ _
        simpa [SchedAct.spares, SchedAct.actor, SchedAct.marks] using Ne.symm hx
      · exact goes_call_of_ne _ hx
      · intro j hw
        change (m.store π i none).waiting _ _ = _
        rw [store_waiting]
        split
        next heq =>
          rw [heq.1, heq.2, hslot] at hw
          exact absurd (Option.some.inj hw).symm hx
        next => exact hw

/-- A transmit keeps the invariant. -/
theorem Kept.transmits (h : Kept sys m) (hstep : m.transmit sys π = some n) : Kept sys n := by
  unfold transmit at hstep
  dsimp only at hstep
  split at hstep
  next receiver hslot =>
    obtain ⟨t, ht, rfl⟩ := Option.map_eq_some_iff.mp hstep
    exact h.finds hslot ht
  next =>
    obtain ⟨t, ht, rfl⟩ := Option.map_eq_some_iff.mp hstep
    exact h.passes ht (fun _ => rfl) rfl rfl

/-- What an `announce` does. -/
theorem step_announce (hstep : m.step sys (.announce p) = some n) :
    ∃ c, m.call p = some c ∧ c.pc = .prepared ∧
      n = (m.store (sys.pun p) c.intr_no (some p)).goes p { c with pc := .announced } := by
  obtain ⟨-, hstep⟩ := Option.ite_none_right_eq_some.mp hstep
  obtain ⟨c, hcall, hstep⟩ := Option.bind_eq_some_iff.mp hstep
  obtain ⟨hpc, hstep⟩ := Option.ite_none_right_eq_some.mp hstep
  exact ⟨c, hcall, hpc, (Option.some.inj hstep).symm⟩

/-- **A step in which a store finds the slot empty keeps the invariant.** -/
theorem Kept.step {act : ReceiveAct N U} (h : Kept sys m) (hempty : m.FindsEmpty sys act)
    (hstep : m.step sys act = some n) : Kept sys n := by
  cases act with
  | sched act =>
      obtain ⟨hadm, hstep⟩ := Option.ite_none_right_eq_some.mp hstep
      obtain ⟨t, ht, rfl⟩ := Option.map_eq_some_iff.mp hstep
      exact h.follows hadm ht
  | receive p intr_no =>
      obtain ⟨hnone, hstep⟩ := Option.ite_none_right_eq_some.mp hstep
      obtain ⟨t, ht, rfl⟩ := Option.map_eq_some_iff.mp hstep
      exact h.receives (Option.isNone_iff_eq_none.mp hnone) ht
  | announce p =>
      obtain ⟨c, hcall, hpc, rfl⟩ := step_announce hstep
      exact h.announces hcall hpc (hempty c hcall)
  | fires π intr_no =>
      obtain ⟨t, ht, rfl⟩ := Option.map_eq_some_iff.mp hstep
      exact h.passes ht (fun _ => rfl) rfl rfl
  | transmit π =>
      obtain ⟨-, hstep⟩ := Option.ite_none_right_eq_some.mp hstep
      exact h.transmits hstep

/-- **A store to a slot that is not empty orphans the process there.** -/
theorem Kept.not_recorded {act : ReceiveAct N U} (h : Kept sys m)
    (hfull : ¬ m.FindsEmpty sys act) (hstep : m.step sys act = some n) : ¬ Recorded sys n := by
  cases act with
  | announce p =>
      obtain ⟨c, hcall, hpc, rfl⟩ := step_announce hstep
      intro hrec
      apply hfull
      intro c' hc'
      obtain rfl := Option.some.inj (hcall.symm.trans hc')
      cases hslot : m.waiting (sys.pun p) c.intr_no with
      | none => rfl
      | some r =>
          obtain ⟨hpun, hr⟩ := h.slots _ _ r hslot
          have hne : r ≠ p := by
            intro heq
            rw [heq, hcall] at hr
            have hpc' := congrArg ReceiveCall.pc (Option.some.inj hr)
            rw [hpc] at hpc'
            cases hpc'
          have hmine := hrec.announced r _ ((goes_call_of_ne _ hne).trans hr) rfl
          change (m.store _ _ _).waiting _ _ = _ at hmine
          rw [store_waiting, if_pos ⟨hpun, rfl⟩] at hmine
          exact absurd (Option.some.inj hmine).symm hne
  | _ => exact absurd trivial hfull

end Steps

section Results

variable {sys : Procs N U} {m n : Receives N U} {π : Fin U} {p x : Fin N} {c : ReceiveCall}
  {s t : Sched N U}

/-- The invariant of the runs that are in order: nobody is about to schedule a process
in `receive`. -/
structure Served (sys : Procs N U) (m : Receives N U) : Prop where
  kept : Kept sys m
  ledger : m.sched.Ledger (fun _ => True) sys
  uncalled : ∀ p, m.call p ≠ none → ∀ u, (m.sched.live u).op ≠ .schedule p

/-- Nobody comes to be about to schedule a process that is in no par and no select,
unless by waking it. -/
theorem uncalled_step {act : SchedAct N U} {size : Nat → Prop} (h : s.Ledger size sys)
    (hsettled : s.Settled sys) (hstep : s.step sys act = some t)
    (hfamily : (s.live p).code.family = none) (halt : s.alt_state p ≠ .waiting)
    (hwake : ∀ u, act ≠ .wake u p) (hun : ∀ u, (s.live u).op ≠ .schedule p) (u : Fin N) :
    (t.live u).op ≠ .schedule p := by
  intro hop
  obtain hold | hwakes | ⟨-, -, hwaiting⟩ | ⟨rfl, hparent⟩ := hsettled.engages hstep hop
  · exact hun u hold
  · exact hwake u hwakes
  · exact halt hwaiting
  · -- a child that has not synced has its parent in a par
    have hcode : (s.live u).code = .own := by
      cases Sched.step_cases hstep with
      | sync hmay _ => exact hmay.code_eq
    obtain ⟨nc, left, hfam, -⟩ := h.books.parent_waits hparent (by rw [hcode]; rfl)
    rw [hfamily] at hfam
    cases hfam

/-- Where a process in `receive` is, it is in no par and in no select. -/
theorem Kept.single (h : Kept sys m) (hcall : m.call p = some c) :
    (m.sched.live p).code.family = none ∧ m.sched.alt_state p ≠ .waiting := by
  have hwaits := (h.calls p c hcall).waits
  have hstate := h.tally.state p
  cases hcode : (m.sched.live p).code with
  | prepared =>
      rw [hcode] at hstate
      exact ⟨rfl, hstate.2⟩
  | relinquish w =>
      rw [hcode] at hstate hwaits
      cases w with
      | sched => exact ⟨rfl, hstate.2⟩
      | _ => cases hwaits
  | switched w =>
      rw [hcode] at hstate hwaits
      cases w with
      | sched => exact ⟨rfl, hstate.2⟩
      | _ => cases hwaits
  | _ =>
      rw [hcode] at hwaits
      cases hwaits

/-- What a step is for the scheduler, and for the calls. -/
theorem step_does {act : ReceiveAct N U} (hstep : m.step sys act = some n) :
    (∃ a, m.does act = some a ∧ m.sched.step sys a = some n.sched) ∨
      m.does act = none ∧ n.sched = m.sched := by
  cases act with
  | sched act =>
      obtain ⟨-, hstep⟩ := Option.ite_none_right_eq_some.mp hstep
      obtain ⟨t, ht, rfl⟩ := Option.map_eq_some_iff.mp hstep
      left
      exact ⟨act, rfl, by rw [follow_sched]; exact ht⟩
  | receive p intr_no =>
      obtain ⟨-, hstep⟩ := Option.ite_none_right_eq_some.mp hstep
      obtain ⟨t, ht, rfl⟩ := Option.map_eq_some_iff.mp hstep
      exact Or.inl ⟨_, rfl, ht⟩
  | announce p =>
      obtain ⟨c, -, -, rfl⟩ := step_announce hstep
      exact Or.inr ⟨rfl, rfl⟩
  | fires π intr_no =>
      obtain ⟨t, ht, rfl⟩ := Option.map_eq_some_iff.mp hstep
      exact Or.inl ⟨_, rfl, ht⟩
  | transmit π =>
      obtain ⟨-, hstep⟩ := Option.ite_none_right_eq_some.mp hstep
      unfold transmit at hstep
      dsimp only at hstep
      left
      split at hstep
      next receiver hslot =>
        obtain ⟨t, ht, rfl⟩ := Option.map_eq_some_iff.mp hstep
        exact ⟨_, by simp [does, hslot], ht⟩
      next hslot =>
        obtain ⟨t, ht, rfl⟩ := Option.map_eq_some_iff.mp hstep
        exact ⟨_, by simp [does, hslot], ht⟩

/-- Nobody wakes a process in `receive`. -/
theorem does_not_wake {act : ReceiveAct N U} (hstep : m.step sys act = some n)
    (hcall : m.call p ≠ none ∨ n.call p ≠ none) (u : Fin N) :
    m.does act ≠ some (.wake u p) := by
  intro hdoes
  cases act with
  | sched act =>
      obtain rfl := Option.some.inj hdoes
      obtain ⟨hadm, hstep⟩ := Option.ite_none_right_eq_some.mp hstep
      obtain ⟨t, -, rfl⟩ := Option.map_eq_some_iff.mp hstep
      obtain ⟨c, hc⟩ := Option.ne_none_iff_exists'.mp (hcall.elim id id)
      have hspares := admits_spares hadm hc (by simp)
      simp [SchedAct.spares, SchedAct.marks] at hspares
  | receive _ _ => cases hdoes
  | announce _ => cases hdoes
  | fires _ _ => cases hdoes
  | transmit π =>
      unfold does at hdoes
      dsimp only at hdoes
      split at hdoes <;> cases hdoes

/-- A call begins with `receive`. -/
theorem step_begins {act : ReceiveAct N U} (h : Kept sys m) (hstep : m.step sys act = some n)
    (hnone : m.call p = none) (hsome : n.call p ≠ none) :
    ∃ intr_no, act = .receive p intr_no := by
  cases act with
  | sched act =>
      obtain ⟨-, hstep⟩ := Option.ite_none_right_eq_some.mp hstep
      obtain ⟨t, -, rfl⟩ := Option.map_eq_some_iff.mp hstep
      exfalso
      apply hsome
      cases act with
      | run q =>
          simp only [follow]
          split
          · by_cases hq : p = q
            · rw [hq]
              exact Function.update_self _ _ _
            · rw [Function.update_of_ne hq]
              exact hnone
          · exact hnone
      | _ => exact hnone
  | receive q intr_no =>
      obtain ⟨-, hstep⟩ := Option.ite_none_right_eq_some.mp hstep
      obtain ⟨t, -, rfl⟩ := Option.map_eq_some_iff.mp hstep
      by_cases hq : p = q
      · exact ⟨intr_no, by rw [hq]⟩
      · rw [goes_call_of_ne _ hq] at hsome
        exact absurd hnone hsome
  | announce q =>
      obtain ⟨c, hcall, -, rfl⟩ := step_announce hstep
      have hq : p ≠ q := by
        intro heq
        rw [heq, hcall] at hnone
        cases hnone
      rw [goes_call_of_ne _ hq] at hsome
      exact absurd hnone hsome
  | fires π intr_no =>
      obtain ⟨t, -, rfl⟩ := Option.map_eq_some_iff.mp hstep
      exact absurd hnone hsome
  | transmit π =>
      obtain ⟨-, hstep⟩ := Option.ite_none_right_eq_some.mp hstep
      unfold transmit at hstep
      dsimp only at hstep
      split at hstep
      next receiver hslot =>
        obtain ⟨t, -, rfl⟩ := Option.map_eq_some_iff.mp hstep
        have hq : p ≠ receiver := by
          intro heq
          rw [heq, (h.slots _ _ _ hslot).2] at hnone
          cases hnone
        rw [goes_call_of_ne _ hq] at hsome
        exact absurd hnone hsome
      next =>
        obtain ⟨t, -, rfl⟩ := Option.map_eq_some_iff.mp hstep
        exact absurd hnone hsome

/-- Nobody is about to schedule a process that does not wait. -/
theorem uncalled_of_own {size : Nat → Prop} (h : s.Ledger size sys)
    (hcode : (s.live p).code = .own) (u : Fin N) : (s.live u).op ≠ .schedule p := by
  intro hop
  have hpos : 0 < s.calls p := Finset.card_pos.mpr ⟨u, by simp [hop]⟩
  have howed := h.books.owed p
  have hnone : s.woken p = 0 := Sched.woken_none (by rw [hcode]; rfl)
  omega

theorem served_init (sys : Procs N U) : Served sys (init sys) where
  kept := kept_init sys
  ledger := Sched.ledger_init sys
  uncalled _ hcall := absurd rfl hcall

theorem Served.step {act : ReceiveAct N U} (h : Served sys m) (horder : m.InOrder sys act)
    (hstep : m.step sys act = some n) : Served sys n := by
  refine ⟨h.kept.step horder.1 hstep, ?_, ?_⟩
  · obtain ⟨a, hdoes, ha⟩ | ⟨-, hsame⟩ := step_does hstep
    · exact h.ledger.step (horder.2 a hdoes) (fun _ _ _ _ => trivial) ha
    · rw [hsame]
      exact h.ledger
  · intro p hcall u
    obtain ⟨a, hdoes, ha⟩ | ⟨hnone, hsame⟩ := step_does hstep
    · have hwake : ∀ v, a ≠ .wake v p := by
        intro v heq
        exact does_not_wake hstep (Or.inr hcall) v (by rw [hdoes, heq])
      cases hc : m.call p with
      | some c =>
          obtain ⟨hfamily, halt⟩ := h.kept.single hc
          apply uncalled_step h.ledger h.kept.tally.settled ha hfamily halt hwake
          apply h.uncalled
          rw [hc]
          exact Option.some_ne_none c
      | none =>
          obtain ⟨intr_no, rfl⟩ := step_begins h.kept hstep hc hcall
          obtain rfl := Option.some.inj hdoes
          have hown : (m.sched.live p).code = .own := by
            obtain ⟨hmay, -⟩ := Option.ite_none_right_eq_some.mp ha
            exact hmay.code_eq
          have hstate := h.kept.tally.state p
          rw [hown] at hstate
          exact uncalled_step h.ledger h.kept.tally.settled ha (by rw [hown]; rfl) hstate hwake
            (uncalled_of_own h.ledger hown) u
    · rw [hsame]
      apply h.uncalled
      intro hc
      obtain ⟨intr_no, rfl⟩ := step_begins h.kept hstep hc hcall
      cases hnone

/-- Whoever has been found by a transmit goes on. -/
theorem Served.notOrphaned (h : Served sys m) : NotOrphaned sys m where
  toRecorded := h.kept.recorded
  ready p c hcall hpc := by
    have hplace := (h.kept.calls p c hcall).place
    unfold Place at hplace
    rw [hpc] at hplace
    exact hplace.2
  once p c hcall hpc := by
    have hplace := (h.kept.calls p c hcall).place
    unfold Place at hplace
    rw [hpc] at hplace
    have hawake : m.sched.Awakened p := by
      obtain ⟨hwaits, hready⟩ := hplace
      unfold Sched.Awakened
      cases hcode : (m.sched.live p).code with
      | prepared => exact hready
      | relinquish w =>
          rw [hcode] at hwaits
          cases w with
          | sched => exact hready
          | _ => cases hwaits
      | switched w =>
          rw [hcode] at hwaits
          cases w with
          | sched => exact hready
          | _ => cases hwaits
      | _ =>
          rw [hcode] at hwaits
          cases hwaits
    have huncalled := h.uncalled p (by rw [hcall]; exact Option.some_ne_none c)
    obtain hcur | hqueued := h.ledger.awake hawake huncalled
    · exact Or.inl hcur
    · exact Or.inr (Sched.places_queued h.ledger.sound.lined hqueued)
  found π intr_no p hslot := (h.kept.slots π intr_no p hslot).2

/-- **Who is recorded.**  Everybody who has announced itself, and has not been found by
a transmit, is in the slot of its interrupt throughout a run exactly if every store of
the run finds the slot empty. -/
theorem recorded_iff (sys : Procs N U) {acts : List (ReceiveAct N U)} {m : Receives N U}
    (hrun : exec (Receives.step sys) (init sys) acts = some m) :
    Throughout (Receives.step sys) (Recorded sys) (init sys) acts ↔
      Along (Receives.step sys) (FindsEmpty sys) (init sys) acts := by
  apply throughout_iff_along (I := Kept sys) _ _ _ hrun (kept_init sys)
  · intro m act n h hempty hstep
    exact h.step hempty hstep
  · intro m h
    exact h.recorded
  · intro m act n h hfull hstep
    exact h.not_recorded hfull hstep

end Results

-- a receiver is preempted in its window, and then found by a transmit: it gives up the
-- processor although it is Ready, and is in no queue
example :
    (exec (Receives.step pairOfChildren) (init pairOfChildren)
      [.sched (.par 0 .par_pri 2), .sched (.build 0 2), .sched (.build 0 3), .sched (.run 0),
        .sched (.run 0), .sched (.prepare 2), .sched (.run 2), .sched (.run 2), .receive 3 0,
        .announce 3, .sched (.run 3), .sched (.interrupt 0 .timeout),
        .sched (.freeProcess 0 2), .sched (.handle 0), .sched (.handle 0), .sched (.run 2),
        .fires 0 0, .transmit 0, .sched (.handle 0), .sched (.handle 0), .sched (.handle 0),
        .sched (.prepare 2), .sched (.run 2), .sched (.run 2), .sched (.run 3)]).any
      (fun m => (m.call 3).any (fun c => c.pc = .transmitted) && m.sched.current 0 = 1 &&
        !(m.sched.queues.links 0).elem 3 && !(m.sched.queues.ipq 0).elem 3) = true := by
  decide +kernel

end Receives

end Cxp
