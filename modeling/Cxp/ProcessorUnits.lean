import Cxp.ReadyQueue
import Cxp.RunInduction

/-!
# Processing units and their interprocessor queues (`sched.c`, `ipq.m`)

Each processing unit runs a process, has a ready queue, and takes from its
interprocessor queue in the interprocessor interrupt handler and in `take` and
`take1`.  Here the interprocessor queues are the rings with their atomic
operations, and `ipq_add` sends an interrupt after its store.

* An interrupt that is sent stays pending until its unit enters the handler;
  sending another one meanwhile makes no difference.
* The handler goes on with the next entry when `schedule0` returns.  Where that
  has switched to the process it made ready, it returns when the interrupted
  process has the unit again.
* What a unit does with interrupts disabled is one step, but for its accesses
  to the rings.  The ready queue is the list that `enqueue0` makes of it
  (`Queues.placed`).  A process that waits may be readied by anybody.
-/

namespace Cxp

open Run

namespace IPQueue

variable {Pun Proc : Type}

/-- What a call of `ipq_remove` returns if its next operation is the last. -/
def result (s : IPQueue Pun Proc) : Option (Option Proc) :=
  match s.remover with
  | .idle => none
  | .loadAdd r => if s.nextAdd ≠ r then none else some none
  | .exchange r =>
      match s.que r with
      | none => some none
      | some _ => none
  | .release _ proc => some (some proc)

end IPQueue

/-- The callers of `take` and `take1`. -/
inductive Taker
  | relinquish
  | yield
  /-- `schedule_from_interrupt` -/
  | preempt
  /-- `finish_termination` -/
  | terminate
  deriving DecidableEq

/-- Where the current process of a unit stands.  A call of `ipq_add` is made
from a handler or from `schedule`. -/
inductive Station (N U : Nat)
  /-- in its own code -/
  | user
  /-- has made itself Waiting, in `relinquish`, about to disable interrupts -/
  | blocking
  /-- in `ipq_add`, on the queue of unit `ρ` -/
  | add (ρ : Fin U) (handler : Bool)
  /-- in `ipq_add`, about to send the interrupt to unit `ρ` -/
  | send (ρ : Fin U) (handler : Bool)
  /-- in the loop of `take` or `take1` -/
  | take (taker : Taker)
  /-- about to enable interrupts -/
  | enable
  /-- in the loop of `handle_interprocessor_interrupt`, about to remove -/
  | loop
  /-- there, about to call `schedule0(proc)` -/
  | schedule (proc : Fin N)
  /-- in the handler of another interrupt -/
  | handling
  /-- in a handler, about to call `schedule_from_interrupt` -/
  | preempt
  /-- in a handler, about to enable interrupts and return -/
  | exit
  deriving DecidableEq

namespace Station

variable {N U : Nat}

/-- Interrupts are enabled. -/
def enabled : Station N U → Bool
  | user | blocking => true
  | _ => false

/-- The unit comes to remove entries before it enables interrupts. -/
def drains : Station N U → Bool
  | loop | schedule _ | take _ => true
  | add _ handler | send _ handler => handler
  | _ => false

/-- Where `schedule0` returns to. -/
def back (handler : Bool) : Station N U :=
  if handler then loop else enable

end Station

/-- The units and the processes.  `saved` is where a process goes on when it is
given its unit, and `interrupted` where it was when the interrupt came that it
handles. -/
structure Units (N U : Nat) where
  ring : Fin U → IPQueue (Fin U) (Fin N)
  pending : Fin U → Bool
  current : Fin U → Fin N
  ready : Fin U → List (Fin N)
  waiting : Fin N → Bool
  station : Fin U → Station N U
  saved : Fin N → Station N U
  interrupted : Fin N → Station N U

/-- What happens next. -/
inductive UnitAct (N U : Nat)
  /-- the current process calls `schedule(proc)` -/
  | schedule (π : Fin U) (proc : Fin N)
  /-- it calls `enqueue(proc)` -/
  | enqueue (π : Fin U) (proc : Fin N)
  /-- it makes itself Waiting -/
  | block (π : Fin U)
  | yield (π : Fin U)
  | terminate (π : Fin U)
  /-- the unit takes the pending interprocessor interrupt -/
  | interprocessor (π : Fin U)
  /-- it takes another interrupt -/
  | interrupt (π : Fin U)
  /-- the handler of that readies `proc` -/
  | ready (π : Fin U) (proc : Fin N)
  /-- the unit goes on in what it is in -/
  | go (π : Fin U)

namespace Units

variable {N U : Nat} (sys : Procs N U)

/-- After `initialize`: the initial process runs, every other unit idles, and
all other processes wait. -/
def init : Units N U where
  ring := fun _ => IPQueue.init
  pending := fun _ => false
  current := fun π => if π = sys.pun sys.initial then sys.initial else sys.idler π
  ready := fun π => if π = sys.pun sys.initial then [sys.idler π] else []
  waiting := fun p => decide (p ≠ sys.initial ∧ p ≠ sys.idler (sys.pun p))
  station := fun _ => .user
  saved := fun _ => .user
  interrupted := fun _ => .user

variable (s : Units N U)

def goto (π : Fin U) (station : Station N U) : Units N U :=
  { s with station := Function.update s.station π station }

/-- Another process's actions on a ring. -/
def onRing (π : Fin U) (ring : IPQueue (Fin U) (Fin N)) : Units N U :=
  { s with ring := Function.update s.ring π ring }

def enqueue0 (proc : Fin N) : Units N U :=
  { s with
    ready := Function.update s.ready (sys.pun proc)
      (Queues.placed sys (s.ready (sys.pun proc)) proc) }

def save (proc : Fin N) (station : Station N U) : Units N U :=
  { s with saved := Function.update s.saved proc station }

/-- `set_current`, and restoring the context. -/
def dispatch (π : Fin U) (proc : Fin N) : Option (Units N U) :=
  if sys.pun proc = π then
    some ({ s with current := Function.update s.current π proc }.goto π (s.saved proc))
  else none

/-- A process of higher priority than the current one. -/
def outranks (π : Fin U) (proc : Fin N) : Bool :=
  pri_gt (sys.pri proc) (sys.pri (s.current π))

def schedule0 (π : Fin U) (proc : Fin N) (handler : Bool) : Option (Units N U) :=
  if sys.pun proc = π then
    let curr := s.current π
    if pri_le (sys.pri proc) (sys.pri curr) then
      some ((s.enqueue0 sys proc).goto π (.back handler))
    else ((s.enqueue0 sys curr).save curr (.back handler)).dispatch sys π proc
  else
    let ρ := sys.pun proc
    ((s.ring ρ).step (.add π proc)).map fun ring =>
      (s.onRing ρ ring).goto π (.add ρ handler)

/-- `schedule_from_interrupt` has something to do. -/
def preempts (π : Fin U) : Bool :=
  match s.ready π with
  | [] => false
  | head :: _ => s.outranks sys π head

/-- What the callers of `take` and `take1` do when the interprocessor queue has
been moved to the ready queue. -/
def taken (π : Fin U) : Taker → Option (Units N U)
  | .relinquish =>
      match s.ready π with
      | [] => none
      | new :: rest =>
          ({ s with ready := Function.update s.ready π rest }.save (s.current π)
            .enable).dispatch sys π new
  | .yield =>
      match s.ready π with
      | new :: next :: rest =>
          (({ s with ready := Function.update s.ready π (next :: rest) }.enqueue0 sys
            (s.current π)).save (s.current π) .enable).dispatch sys π new
      | _ => some (s.goto π .enable)
  | .preempt =>
      match s.ready π with
      | [] => none
      | new :: rest =>
          -- the context has been saved when the interrupt came
          ({ s with ready := Function.update s.ready π rest }.enqueue0 sys
            (s.current π)).dispatch sys π new
  | .terminate =>
      match s.ready π with
      | [] => none
      | new :: rest =>
          { s with ready := Function.update s.ready π rest }.dispatch sys π new

/-- The next step of the unit in what it is in. -/
def go (π : Fin U) : Option (Units N U) :=
  match s.station π with
  | .user => none
  | .blocking => some (s.goto π (.take .relinquish))
  | .add ρ handler =>
      ((s.ring ρ).ipq_add π).map fun ring =>
        let s := s.onRing ρ ring
        if ring.adder π matches .idle then s.goto π (.send ρ handler) else s
  | .send ρ handler =>
      some ({ s with
        pending := Function.update s.pending ρ true }.goto π (.back handler))
  | .take taker =>
      let s' := s.onRing π (s.ring π).ipq_remove
      match (s.ring π).result with
      | none => some s'
      | some none => s'.taken sys π taker
      | some (some proc) => some (s'.enqueue0 sys proc)
  | .enable => some (s.goto π .user)
  | .loop =>
      let s' := s.onRing π (s.ring π).ipq_remove
      match (s.ring π).result with
      | none => some s'
      | some none => some (s'.goto π .preempt)
      | some (some proc) => some (s'.goto π (.schedule proc))
  | .schedule proc => s.schedule0 sys π proc true
  | .handling => some (s.goto π .preempt)
  | .preempt => some (s.goto π (if s.preempts sys π then .take .preempt else .exit))
  | .exit => some (s.goto π (s.interrupted (s.current π)))

/-- The unit enters a handler; the interrupted context is saved. -/
def enter (π : Fin U) (handler : Station N U) : Units N U :=
  let curr := s.current π
  { s.save curr (s.station π) with
    interrupted := Function.update s.interrupted curr (s.station π) }.goto π handler

/-- The current process is in its own code, and does not idle. -/
def Busy (π : Fin U) : Prop :=
  s.station π = .user ∧ s.current π ≠ sys.idler π

instance (π : Fin U) : Decidable (s.Busy sys π) :=
  inferInstanceAs (Decidable (_ ∧ _))

/-- A waiting process is taken to be ready. -/
def wake (proc : Fin N) : Units N U :=
  { s with waiting := Function.update s.waiting proc false }

def step : UnitAct N U → Option (Units N U)
  | .schedule π proc =>
      if s.Busy sys π ∧ s.waiting proc then (s.wake proc).schedule0 sys π proc false
      else none
  | .enqueue π proc =>
      if s.Busy sys π ∧ s.waiting proc ∧ sys.pun proc = π then
        some ((s.wake proc).enqueue0 sys proc)
      else none
  | .block π =>
      if s.Busy sys π then
        some ({ s with
          waiting := Function.update s.waiting (s.current π) true }.goto π .blocking)
      else none
  | .yield π => if s.Busy sys π then some (s.goto π (.take .yield)) else none
  | .terminate π => if s.Busy sys π then some (s.goto π (.take .terminate)) else none
  | .interprocessor π =>
      if (s.station π).enabled ∧ s.pending π then
        some ({ s with pending := Function.update s.pending π false }.enter π .loop)
      else none
  | .interrupt π =>
      if (s.station π).enabled then some (s.enter π .handling) else none
  | .ready π proc =>
      if s.station π = .handling ∧ s.waiting proc ∧ sys.pun proc = π then
        some ((s.wake proc).enqueue0 sys proc)
      else none
  | .go π => s.go sys π

variable {sys s} {π : Fin U} {proc : Fin N} {t : Units N U}

/-- A unit is given to its own processes only. -/
theorem dispatch_some (h : s.dispatch sys π proc = some t) :
    sys.pun proc = π ∧
      t = { s with current := Function.update s.current π proc }.goto π
        (s.saved proc) := by
  unfold dispatch at h
  split at h
  · rename_i hpun
    cases h
    exact ⟨hpun, rfl⟩
  · cases h

end Units

end Cxp
