import Cxp.ProcessRecord
import Cxp.RunInduction
import Cxp.TimerQueue
import Mathlib.Data.Fintype.Basic

/-!
# Timeouts in use (`timer.c`, `hardware.c`)

`N` processes on `U` processors call `After`, `enable_timeout` and
`disable_timeout` in any order, timeout interrupts come, and the clock goes on
between any two steps.  What is done with interrupts disabled is cut only
where the clock is read and where the timer is set.

* `timeouts_safe_iff_disable_finds`: no descriptor is ever queued and free at
  once, or released by mistake, exactly when each search of `disable_timeout`
  finds its entry or nothing later than it.
* `head_armed_of_timers_set`: the first entry of each queue has a timer or an
  interrupt to come, as long as no timer is set from a time that is over.
-/

namespace Cxp

open LinkedChain Run Timers

/-- Where a process stands. -/
inductive TimerPc (N : Nat)
  /-- in its own code -/
  | run
  /-- about to enter `insertInQueue` -/
  | link (desc : DescRef N) (type : TimeoutType)
  /-- in `insertInQueue`, has put `desc` first, about to read the clock -/
  | read (desc : DescRef N) (type : TimeoutType)
  /-- in `insertInQueue`, about to set the timer from the clock's value `now` -/
  | arm (desc : DescRef N) (type : TimeoutType) (now : Int)
  /-- in `After`, about to call `relinquish` -/
  | relinquish
  /-- in `After`, has given up the processor -/
  | wait
  /-- in `enable_timeout`, about to allocate a descriptor -/
  | fill (time : Int)
  /-- in `disable_timeout`, about to call `removeFromQueue` -/
  | remove (time : Int)
  /-- in `disable_timeout`, about to release `desc` -/
  | release (time : Int) (desc : DescRef N)
  deriving DecidableEq

/-- Interrupts are disabled between the steps of `insertInQueue`. -/
def TimerPc.locks {N : Nat} : TimerPc N → Bool
  | .read _ _ | .arm _ _ _ => true
  | _ => false

/-- What a caller does after `insertInQueue`. -/
def afterInsert {N : Nat} : TimeoutType → TimerPc N
  | .after => .relinquish
  | .alting => .run

def NS_PER_SEC : Int := 1000000000

/-- The `it_value` of a timer. -/
structure Timespec where
  tv_sec : Int
  tv_nsec : Int

/-- When `timer_settime` makes the timer fire: never, for a zero value. -/
def timer_settime (clock : Int) (it_value : Timespec) : Option Int :=
  if it_value.tv_sec = 0 ∧ it_value.tv_nsec = 0 then none
  else some (clock + (it_value.tv_sec * NS_PER_SEC + it_value.tv_nsec))

/-- Set interval timer for a single interval, from now on. -/
def set_timer_single (clock time : Int) : Option Int :=
  let time := if time > 0 then time else 0
  timer_settime clock ⟨time / NS_PER_SEC, time % NS_PER_SEC⟩

/-- An interval that is over disarms the timer. -/
theorem set_timer_single_eq (clock time : Int) :
    set_timer_single clock time = if 0 < time then some (clock + time) else none := by
  unfold set_timer_single timer_settime NS_PER_SEC
  by_cases h : 0 < time
  · have hne : ¬ (time / 1000000000 = 0 ∧ time % 1000000000 = 0) := by omega
    simp only [h, if_true, hne, if_false, Option.some.injEq]
    omega
  · simp [h]

/-- The processes, the clock and the timers.  `armed` is the time at which a
processor's timeout timer fires, `pending` says that it has fired and the
interrupt is still to be taken, and `handler` holds the time that the running
`handle_timeout_interrupt` has read. -/
structure TimerState (N U : Nat) where
  tm : Timers N U
  clock : Int
  armed : Fin U → Option Int
  pending : Fin U → Bool
  sched_state : Fin N → SchedState
  pc : Fin N → TimerPc N
  handler : Fin U → Option Int

/-- What happens next. -/
inductive TimerAct (N U : Nat)
  | After (p : Fin N) (when : Int)
  | enable_timeout (p : Fin N) (time : Int)
  | disable_timeout (p : Fin N) (time : Int)
  /-- the next step of the call that `p` is in -/
  | run (p : Fin N)
  | tick (δ : Nat)
  | interrupt (π : Fin U)
  /-- the next step of the interrupt handler -/
  | handle (π : Fin U)
  deriving DecidableEq

variable {N U : Nat} (pun : Fin N → Fin U)

namespace TimerState

/-- No timeouts, nobody in a call. -/
def init (N U : Nat) (proc : Fin N) : TimerState N U where
  tm := timer_init proc .after
  clock := 0
  armed := fun _ => none
  pending := fun _ => false
  sched_state := fun _ => .ready
  pc := fun _ => .run
  handler := fun _ => none

/-- Interrupts are enabled on a processor. -/
def enabled (s : TimerState N U) (π : Fin U) : Bool :=
  (s.handler π).isNone && decide (∀ p, pun p = π → (s.pc p).locks = false)

/-- The call of `After`: the check, and filling in the descriptor. -/
def After (s : TimerState N U) (p : Fin N) (when : Int) : TimerState N U :=
  if s.clock < when then
    { s with
      tm := s.tm.fill (.stack p) when p .after
      sched_state := Function.update s.sched_state p .preparingToWait
      pc := Function.update s.pc p (.link (.stack p) .after) }
  else s

/-- The readiness check of `enable_timeout`. -/
def enable_timeout (s : TimerState N U) (p : Fin N) (time : Int) :
    TimerState N U :=
  if s.clock ≥ time then s
  else { s with pc := Function.update s.pc p (.fill time) }

/-- The next step of the call that a process is in. -/
def run (s : TimerState N U) (p : Fin N) : Option (TimerState N U) :=
  match s.pc p with
  | .run => none
  | .link desc type =>
      (s.tm.insertInQueue (pun p) desc).map fun r =>
        { s with
          tm := r.1
          pc := Function.update s.pc p
            (if r.2 then .read desc type else afterInsert type) }
  | .read desc type =>
      some { s with pc := Function.update s.pc p (.arm desc type s.clock) }
  | .arm desc type now =>
      some { s with
        armed := Function.update s.armed (pun p)
          (set_timer_single s.clock (s.tm.time desc - now))
        pc := Function.update s.pc p (afterInsert type) }
  | .relinquish =>
      if s.sched_state p = .preparingToWait then
        some { s with
          sched_state := Function.update s.sched_state p .waiting
          pc := Function.update s.pc p .wait }
      else some { s with pc := Function.update s.pc p .run }
  | .wait =>
      if s.sched_state p = .ready then
        some { s with pc := Function.update s.pc p .run }
      else none
  | .fill time =>
      let r := s.tm.allocate_mem
      some { s with
        tm := r.2.fill r.1 time p .alting
        pc := Function.update s.pc p (.link r.1 .alting) }
  | .remove time =>
      (s.tm.removeFromQueue (pun p) time p).map fun r =>
        { s with
          tm := r.1
          pc := Function.update s.pc p
            (match r.2 with
              | some desc => .release time desc
              | none => .run) }
  | .release _ desc =>
      some { s with
        tm := s.tm.release_mem desc
        pc := Function.update s.pc p .run }

/-- The next round of the loop of `handle_timeout_interrupt`, or its end.
`maybeFreeAltingProcess` touches nothing that is modelled here. -/
def handle (s : TimerState N U) (π : Fin U) (now : Int) : TimerState N U :=
  match s.tm.head π with
  | none => { s with handler := Function.update s.handler π none }
  | some head =>
      if s.tm.time head ≤ now then
        { s with
          tm := s.tm.removeHead π head
          sched_state := match s.tm.type head with
            | .after => Function.update s.sched_state (s.tm.proc head) .ready
            | .alting => s.sched_state }
      else
        { s with
          armed := Function.update s.armed π
            (set_timer_single s.clock (s.tm.time head - now))
          handler := Function.update s.handler π none }

/-- The timers that fire when the clock comes to `clock`. -/
def fires (s : TimerState N U) (clock : Int) (π : Fin U) : Bool :=
  (s.armed π).any (· ≤ clock)

/-- One step. -/
def step (s : TimerState N U) : TimerAct N U → Option (TimerState N U)
  | .After p when =>
      if s.pc p = .run ∧ s.enabled pun (pun p) then some (s.After p when) else none
  | .enable_timeout p time =>
      if s.pc p = .run ∧ s.enabled pun (pun p) then some (s.enable_timeout p time)
      else none
  | .disable_timeout p time =>
      if s.pc p = .run ∧ s.enabled pun (pun p) then
        some { s with pc := Function.update s.pc p (.remove time) }
      else none
  | .run p =>
      if (s.pc p).locks ∨ s.enabled pun (pun p) then s.run pun p else none
  | .tick δ =>
      some { s with
        clock := s.clock + δ
        armed := fun π => if s.fires (s.clock + δ) π then none else s.armed π
        pending := fun π => s.pending π || s.fires (s.clock + δ) π }
  | .interrupt π =>
      if s.enabled pun π ∧ s.pending π then
        some { s with
          pending := Function.update s.pending π false
          handler := Function.update s.handler π (some s.clock) }
      else none
  | .handle π => (s.handler π).map (s.handle π)

/-- What a step takes, and where it goes. -/
inductive Steps (s : TimerState N U) : TimerAct N U → TimerState N U → Prop
  | After {p : Fin N} {when : Int} (hpc : s.pc p = .run) (henabled : s.enabled pun (pun p)) :
      Steps s (.After p when) (s.After p when)
  | enable_timeout {p : Fin N} {time : Int} (hpc : s.pc p = .run)
      (henabled : s.enabled pun (pun p)) :
      Steps s (.enable_timeout p time) (s.enable_timeout p time)
  | disable_timeout {p : Fin N} {time : Int} (hpc : s.pc p = .run)
      (henabled : s.enabled pun (pun p)) :
      Steps s (.disable_timeout p time) { s with pc := Function.update s.pc p (.remove time) }
  | run {p : Fin N} {t : TimerState N U} (hmay : (s.pc p).locks ∨ s.enabled pun (pun p))
      (hrun : s.run pun p = some t) : Steps s (.run p) t
  | tick {δ : Nat} : Steps s (.tick δ) { s with
      clock := s.clock + δ
      armed := fun π => if s.fires (s.clock + δ) π then none else s.armed π
      pending := fun π => s.pending π || s.fires (s.clock + δ) π }
  | interrupt {π : Fin U} (henabled : s.enabled pun π) (hpending : s.pending π) :
      Steps s (.interrupt π) { s with
        pending := Function.update s.pending π false
        handler := Function.update s.handler π (some s.clock) }
  | handle {π : Fin U} {now : Int} (hnow : s.handler π = some now) :
      Steps s (.handle π) (s.handle π now)

variable {pun}

/-- **Every step is one of these.** -/
theorem step_cases {s t : TimerState N U} {act : TimerAct N U} (hstep : s.step pun act = some t) :
    Steps pun s act t := by
  cases act with
  | After p when =>
      obtain ⟨⟨hpc, henabled⟩, ht⟩ := Option.ite_none_right_eq_some.mp hstep
      cases ht
      exact .After hpc henabled
  | enable_timeout p time =>
      obtain ⟨⟨hpc, henabled⟩, ht⟩ := Option.ite_none_right_eq_some.mp hstep
      cases ht
      exact .enable_timeout hpc henabled
  | disable_timeout p time =>
      obtain ⟨⟨hpc, henabled⟩, ht⟩ := Option.ite_none_right_eq_some.mp hstep
      cases ht
      exact .disable_timeout hpc henabled
  | run p =>
      obtain ⟨hmay, ht⟩ := Option.ite_none_right_eq_some.mp hstep
      exact .run hmay ht
  | tick δ =>
      cases hstep
      exact .tick
  | interrupt π =>
      obtain ⟨⟨henabled, hpending⟩, ht⟩ := Option.ite_none_right_eq_some.mp hstep
      cases ht
      exact .interrupt henabled hpending
  | handle π =>
      obtain ⟨now, hnow, rfl⟩ := Option.map_eq_some_iff.mp hstep
      exact .handle hnow

end TimerState

end Cxp
