import Cxp.ReadyQueue
import Mathlib.Data.Fintype.Prod
import Mathlib.Data.Fintype.Option

/-!
# The scheduler (`sched.c`, `run.c`, `par_barrier.m`, `hardware.c`)

`N` processes on `U` processors wait in `in`, `out`, `After` and `receive`, in
selects and in the four par constructs; they wake each other, yield, terminate,
and are interrupted wherever interrupts are enabled.

* A step of a process is an atomic operation on a state field, or a whole
  section with interrupts disabled: nothing else touches the ready queue of its
  processor meanwhile, and what other processors do to its interprocessor queue
  may as well be done before.  A handler's step is one call that it makes.
* What a channel, a timer queue or an interrupt is for is left open: whoever is
  in its own code may wake any process that waits in `in`, `out`, `After` or
  `receive`, and may free any that is in a select; so may the handlers, on
  their own processor.
* A process that has lost the processor resumes at the context saved in its
  record, `stackptr`.  The point where it really was, `lost`, is kept as well.
-/

namespace Cxp

/-- The four constructs that run children. -/
inductive ParKind
  | par
  | par_pri
  | placed_par
  | placed_par_pri
  deriving DecidableEq

namespace ParKind

def prioritised : ParKind → Bool
  | par | placed_par => false
  | par_pri | placed_par_pri => true

def placed : ParKind → Bool
  | par | par_pri => false
  | placed_par | placed_par_pri => true

/-- The construct accepts `nc` children under a parent of the priority; else
it ends the program. -/
def accepts (kind : ParKind) (pri nc : Nat) : Bool :=
  !kind.prioritised || (nc ≤ PRI_PROCS && pri_level pri + 1 ≤ PRI_LEVELS)

/-- The priority of the `i`-th child of a parent of the priority. -/
def child_pri (kind : ParKind) (pri i : Nat) : Nat :=
  if kind.prioritised then
    let level := pri_level pri + 1
    priority level (pri + i * pri_delta level)
  else pri

end ParKind

/-- What a process waits for. -/
inductive Wait
  /-- in `in`, `out`, `After` or `receive`: that its `sched_state` is Ready -/
  | sched
  /-- in a select: that its `alt_state` is Ready -/
  | alt
  /-- in a par of `nc` children: that the last of them is done -/
  | par (nc : Nat)
  deriving DecidableEq

/-- Where a process stands in its code. -/
inductive Code
  /-- its record has not been built yet -/
  | unborn
  /-- anywhere else in its code -/
  | own
  /-- preparing to wait, before `relinquish` tries to make it Waiting -/
  | prepared
  /-- in a select, before it tries Enabling to Waiting -/
  | enabling
  /-- in a select, finding its ready guard -/
  | disabling
  /-- in a par of `nc` children, `left` of them not built yet -/
  | par (kind : ParKind) (nc left : Nat)
  /-- marked as waiting, before it disables interrupts -/
  | relinquish (wait : Wait)
  /-- has switched to another process, before it enables interrupts -/
  | switched (wait : Wait)
  /-- past `par_barr_sync`, before it takes the termination stack -/
  | ending
  /-- in `finish_termination`, before it disables interrupts -/
  | finishing
  | dead
  deriving DecidableEq

/-- What a process does about another one. -/
inductive Op (N : Nat)
  | none
  /-- in `freeProcessMaybe(q)`, found Waiting, before it tries Waiting to Ready -/
  | freeWaiting (q : Fin N)
  /-- before `schedule(q)` -/
  | schedule (q : Fin N)
  /-- in `schedule` or `yield`, the switch made, before it enables interrupts -/
  | enable
  deriving DecidableEq

/-- Where an interrupt handler stands. -/
inductive Handler (N : Nat)
  /-- in the loop of `handle_timeout_interrupt` -/
  | timeout
  /-- in `maybeFreeAltingProcess(q)`, found Waiting, before it tries Waiting to Ready -/
  | freeWaiting (q : Fin N)
  /-- in the loop of `handle_interprocessor_interrupt` -/
  | interproc
  /-- in `transmit` -/
  | user
  /-- before `schedule_from_interrupt`, which `handle_user_interrupt` calls
  `again` after `transmit` has -/
  | preempt (again : Bool)
  /-- before it enables interrupts and returns -/
  | exit
  deriving DecidableEq

/-- A context: where a process is, and inside which handler if any. -/
structure Context (N : Nat) where
  code : Code
  op : Op N
  inside : Option (Handler N)
  deriving DecidableEq

/-- The interrupts. -/
inductive Interrupt
  | elapsed
  | timeout
  | interproc
  | user

/-- The scheduler's variables and the processes.  `live` is the context of a
current process, and that of another one when it ran last; `lost` is where a
process last gave up the processor, and `swapped` tells whether that was inside
the handler it is in. -/
structure Sched (N U : Nat) where
  queues : Queues N U
  current : Fin U → Fin N
  sched_state : Fin N → SchedState
  alt_state : Fin N → AltState
  children : Fin N → Int
  parent : Fin N → Option (Fin N)
  live : Fin N → Context N
  stackptr : Fin N → Context N
  lost : Fin N → Context N
  swapped : Fin N → Bool

/-- One step. -/
inductive SchedAct (N U : Nat)
  /-- the process prepares to wait -/
  | prepare (p : Fin N)
  /-- it begins a select -/
  | select (p : Fin N)
  /-- its select finds a ready guard while enabling -/
  | found (p : Fin N)
  /-- it begins a par construct -/
  | par (p : Fin N) (kind : ParKind) (nc : Nat)
  /-- its par construct builds the next child and readies it -/
  | build (p child : Fin N)
  /-- it makes `q` Ready, and is to schedule it if it was Waiting -/
  | wake (p q : Fin N)
  /-- it calls `freeProcessMaybe(q)` -/
  | free (p q : Fin N)
  | yield (p : Fin N)
  /-- it has run to completion and calls `par_barr_sync` -/
  | sync (p : Fin N)
  /-- it takes the next step of what it is in -/
  | run (p : Fin N)
  /-- the processor is interrupted -/
  | interrupt (π : Fin U) (i : Interrupt)
  /-- the handler frees `q`, which waits in `After` or `receive` -/
  | freeProcess (π : Fin U) (q : Fin N)
  /-- the handler frees `q`, which is in a select -/
  | freeAlting (π : Fin U) (q : Fin N)
  /-- the handler takes its next step -/
  | handle (π : Fin U)

/-- It waits for its `sched_state` to be Ready, or is about to. -/
def Code.waits : Code → Bool
  | .prepared | .relinquish .sched | .switched .sched => true
  | _ => false

/-- A mutex may be claimed here, and with it the processor yielded. -/
def Code.yields : Code → Bool
  | .own | .enabling | .disabling | .par _ _ (_ + 1) | .ending | .finishing => true
  | _ => false

/-- Where it goes on when it has waited. -/
def Wait.after : Wait → Code
  | .sched | .par _ => .own
  | .alt => .disabling

/-- Interrupts are disabled, the process being in its own code. -/
def Context.disabled {N : Nat} (c : Context N) : Bool :=
  match c.code, c.op with
  | .switched _, _ => true
  | _, .enable => true
  | _, _ => false

/-- Where the handler of the interrupt begins. -/
def Interrupt.handler {N : Nat} : Interrupt → Handler N
  | .elapsed => .exit
  | .timeout => .timeout
  | .interproc => .interproc
  | .user => .user

namespace Sched

variable {N U : Nat}

section Switching

/-- The process goes on elsewhere in its code. -/
def goto (s : Sched N U) (p : Fin N) (code : Code) : Sched N U :=
  { s with live := Function.update s.live p { s.live p with code := code } }

def doing (s : Sched N U) (p : Fin N) (op : Op N) : Sched N U :=
  { s with live := Function.update s.live p { s.live p with op := op } }

/-- The handler that the process is in goes on, or returns. -/
def handling (s : Sched N U) (p : Fin N) (inside : Option (Handler N)) : Sched N U :=
  { s with live := Function.update s.live p { s.live p with inside := inside } }

/-- `none`: the process belongs to another processor, and the program ends. -/
def set_current (sys : Procs N U) (s : Sched N U) (π : Fin U) (proc : Fin N) :
    Option (Sched N U) :=
  if sys.pun proc = π then
    some { s with current := Function.update s.current π proc }
  else none

def enqueue0 (sys : Procs N U) (s : Sched N U) (proc : Fin N) : Option (Sched N U) :=
  (s.queues.enqueue0 sys proc).map fun queues => { s with queues := queues }

/-- Give the processor to the saved context of a process. -/
def restore_context (s : Sched N U) (new : Fin N) : Sched N U :=
  { s with live := Function.update s.live new (s.stackptr new) }

/-- Save the context of the one, restore that of the other. -/
def switch_context (s : Sched N U) (old new : Fin N) : Sched N U :=
  restore_context
    { s with
      stackptr := Function.update s.stackptr old (s.live old)
      lost := Function.update s.lost old (s.live old)
      swapped := Function.update s.swapped old (s.live old).inside.isSome }
    new

/-- Restore the context of `preempting`.  The interrupted process has nothing
left to do in its handler; where it was interrupted is where it is to resume. -/
def switch_interrupt_context (s : Sched N U) (interrupted preempting : Fin N) :
    Sched N U :=
  restore_context
    { s with
      lost := Function.update s.lost interrupted
        { s.live interrupted with inside := none } }
    preempting

/-- Make the process ready on processor `π`, or tell its own processor. -/
def schedule0 (sys : Procs N U) (s : Sched N U) (π : Fin U) (proc : Fin N) :
    Option (Sched N U) :=
  if sys.pun proc = π then
    let curr := s.current π
    if pri_le (sys.pri proc) (sys.pri curr) then s.enqueue0 sys proc
    else do
      let s ← s.set_current sys π proc
      let s ← s.enqueue0 sys curr
      return s.switch_context curr proc
  else
    (s.queues.ipq_add (sys.pun proc) proc).map fun queues => { s with queues := queues }

/-- The head of the ready queue is of higher priority than the current process. -/
def outranked (sys : Procs N U) (s : Sched N U) (π : Fin U) : Bool :=
  match s.queues.head π with
  | some proc => pri_gt (sys.pri proc) (sys.pri (s.current π))
  | none => false

def schedule_from_interrupt (sys : Procs N U) (s : Sched N U) (π : Fin U) :
    Option (Sched N U) :=
  if s.outranked sys π then do
    let curr := s.current π
    let (proc, queues) ← s.queues.take sys π
    let s ← { s with queues := queues }.enqueue0 sys curr
    let s ← s.set_current sys π proc
    return s.switch_interrupt_context curr proc
  else some s

/-- The second part of `relinquish`, and `relinquish_unconditional`. -/
def relinquish_unconditional (sys : Procs N U) (s : Sched N U) (p : Fin N) (w : Wait) :
    Option (Sched N U) := do
  let (newproc, queues) ← s.queues.take sys (sys.pun p)
  let s ← { s with queues := queues }.set_current sys (sys.pun p) newproc
  return (s.goto p (.switched w)).switch_context p newproc

def yield (sys : Procs N U) (s : Sched N U) (p : Fin N) : Option (Sched N U) := do
  let (newproc, queues) ← s.queues.take1 sys (sys.pun p)
  match newproc with
  | none => return { s with queues := queues }
  | some newproc =>
      let s ← { s with queues := queues }.set_current sys (sys.pun p) newproc
      let s ← s.enqueue0 sys p
      return (s.doing p .enable).switch_context p newproc

/-- The record of the process is not used any more. -/
def vanish (s : Sched N U) (p : Fin N) : Sched N U :=
  let context : Context N := ⟨.dead, .none, none⟩
  { s with
    live := Function.update s.live p context
    stackptr := Function.update s.stackptr p context }

/-- What the process does after it has released its record. -/
def finish_termination (sys : Procs N U) (s : Sched N U) (p : Fin N) :
    Option (Sched N U) := do
  let (newproc, queues) ← s.queues.take sys (sys.pun p)
  let s ← { s with queues := queues }.set_current sys (sys.pun p) newproc
  return (s.vanish p).restore_context newproc

end Switching

section Waking

/-- Exchange the `sched_state` of `q` for Ready. -/
def ready (s : Sched N U) (q : Fin N) : Sched N U :=
  { s with sched_state := Function.update s.sched_state q .ready }

def altReady (s : Sched N U) (q : Fin N) : Sched N U :=
  { s with alt_state := Function.update s.alt_state q .ready }

def wake (s : Sched N U) (p q : Fin N) : Sched N U :=
  if s.sched_state q = .waiting then (s.ready q).doing p (.schedule q) else s.ready q

/-- The first attempt of `freeProcessMaybe`. -/
def free (s : Sched N U) (p q : Fin N) : Sched N U :=
  match s.alt_state q with
  | .enabling => s.altReady q
  | .waiting => s.doing p (.freeWaiting q)
  | _ => s

/-- `freeProcess`, and what `transmit` does for its receiver. -/
def freeProcess (sys : Procs N U) (s : Sched N U) (q : Fin N) : Option (Sched N U) :=
  if s.sched_state q = .waiting then (s.ready q).enqueue0 sys q else some (s.ready q)

/-- The first attempt of `maybeFreeAltingProcess`, `curr` being interrupted. -/
def freeAlting (s : Sched N U) (curr q : Fin N) : Sched N U :=
  match s.alt_state q with
  | .enabling => s.altReady q
  | .waiting => s.handling curr (some (.freeWaiting q))
  | _ => s

end Waking

section Pars

/-- What the four constructs do before they build the first child. -/
def par (s : Sched N U) (p : Fin N) (kind : ParKind) (nc : Nat) : Sched N U :=
  { s with
    children := Function.update s.children p nc
    sched_state := Function.update s.sched_state p .preparingToWait }.goto p
      (.par kind nc nc)

/-- Build the record of a child. -/
def make_process (s : Sched N U) (parent child : Fin N) : Sched N U :=
  let context : Context N := ⟨.own, .none, none⟩
  { s with
    parent := Function.update s.parent child (some parent)
    sched_state := Function.update s.sched_state child .waiting
    alt_state := Function.update s.alt_state child .none
    live := Function.update s.live child context
    stackptr := Function.update s.stackptr child context
    lost := Function.update s.lost child context }

/-- Ready a new child: it is put on the ready queue of the parent's processor,
or scheduled on its own. -/
def enqueue (sys : Procs N U) (s : Sched N U) (parent child : Fin N) :
    Option (Sched N U) :=
  if sys.pun child = sys.pun parent then s.enqueue0 sys child
  else s.schedule0 sys (sys.pun parent) child

/-- The process calls `par_barr_sync` on the barrier of its parent. -/
def par_barr_sync (s : Sched N U) (p parent : Fin N) : Sched N U :=
  let pre := s.children parent
  let s := { s with children := Function.update s.children parent (pre - 1) }
  if pre = 1 then (s.goto p .ending).doing p (.schedule parent) else s.goto p .ending

end Pars

/-- The next step of a process in what it is in. -/
def run (sys : Procs N U) (s : Sched N U) (p : Fin N) : Option (Sched N U) :=
  match (s.live p).op with
  | .freeWaiting q =>
      if s.alt_state q = .waiting then some ((s.altReady q).doing p (.schedule q))
      else some (s.doing p .none)
  | .schedule q => (s.doing p .enable).schedule0 sys (sys.pun p) q
  | .enable => some (s.doing p .none)
  | .none =>
      match (s.live p).code with
      | .prepared =>
          if s.sched_state p = .preparingToWait then
            some ({ s with sched_state := Function.update s.sched_state p .waiting }.goto p
              (.relinquish .sched))
          else some (s.goto p .own)
      | .enabling =>
          if s.alt_state p = .enabling then
            some ({ s with alt_state := Function.update s.alt_state p .waiting }.goto p
              (.relinquish .alt))
          else some (s.goto p .disabling)
      | .disabling =>
          some ({ s with alt_state := Function.update s.alt_state p .none }.goto p .own)
      | .par _ nc 0 =>
          if s.sched_state p = .preparingToWait then
            some ({ s with sched_state := Function.update s.sched_state p .waiting }.goto p
              (.relinquish (.par nc)))
          else some (s.goto p .own)
      | .relinquish w => s.relinquish_unconditional sys p w
      | .switched w => some (s.goto p w.after)
      | .ending =>
          -- `set_stack` writes the new context to the record and restores it
          let context : Context N := ⟨.finishing, .none, none⟩
          some { s with
            stackptr := Function.update s.stackptr p context
            live := Function.update s.live p context }
      | .finishing => s.finish_termination sys p
      | _ => none

/-- The next step of the handler that `curr` is in, on processor `π`. -/
def handle (sys : Procs N U) (s : Sched N U) (π : Fin U) (curr : Fin N) :
    Handler N → Option (Sched N U)
  | .timeout => some (s.handling curr (some (.preempt false)))
  | .freeWaiting q =>
      let s := s.handling curr (some .timeout)
      if s.alt_state q = .waiting then (s.altReady q).enqueue0 sys q else some s
  | .interproc =>
      match s.queues.ipq_remove π with
      | none => some (s.handling curr (some (.preempt false)))
      | some (proc, queues) => { s with queues := queues }.schedule0 sys π proc
  | .user => some (s.handling curr (some .exit))
  | .preempt again =>
      (s.handling curr (some (if again then .preempt false else .exit))).schedule_from_interrupt
        sys π
  | .exit => some (s.handling curr none)

/-- The process has its processor and is in its own code. -/
def Runs (sys : Procs N U) (s : Sched N U) (p : Fin N) : Prop :=
  s.current (sys.pun p) = p ∧ (s.live p).inside = none

instance (sys : Procs N U) (s : Sched N U) (p : Fin N) : Decidable (s.Runs sys p) :=
  inferInstanceAs (Decidable (_ ∧ _))

/-- A process that runs, does not idle and stands where the test says, is free
to do something new. -/
def May (sys : Procs N U) (s : Sched N U) (p : Fin N) (test : Code → Bool) : Prop :=
  s.Runs sys p ∧ (s.live p).op = .none ∧ test (s.live p).code ∧ sys.idler (sys.pun p) ≠ p

instance (sys : Procs N U) (s : Sched N U) (p : Fin N) (test : Code → Bool) :
    Decidable (s.May sys p test) :=
  inferInstanceAs (Decidable (_ ∧ _))

/-- The processor is in the handler at that point. -/
def Inside (s : Sched N U) (π : Fin U) (h : Handler N) : Prop :=
  (s.live (s.current π)).inside = some h

instance (s : Sched N U) (π : Fin U) (h : Handler N) : Decidable (s.Inside π h) :=
  inferInstanceAs (Decidable (_ = _))

/-- One step of the system. -/
def step (sys : Procs N U) (s : Sched N U) : SchedAct N U → Option (Sched N U)
  | .prepare p =>
      if s.May sys p (· = .own) then
        some ({ s with
          sched_state := Function.update s.sched_state p .preparingToWait }.goto p .prepared)
      else none
  | .select p =>
      if s.May sys p (· = .own) then
        some ({ s with alt_state := Function.update s.alt_state p .enabling }.goto p .enabling)
      else none
  | .found p => if s.May sys p (· = .enabling) then some (s.goto p .disabling) else none
  | .par p kind nc =>
      if s.May sys p (· = .own) ∧ kind.accepts (sys.pri p) nc then some (s.par p kind nc)
      else none
  | .build p child =>
      match (s.live p).code with
      | .par kind nc (left + 1) =>
          if s.May sys p (fun _ => true) ∧ (s.live child).code = .unborn ∧
              sys.pri child = kind.child_pri (sys.pri p) (nc - (left + 1)) ∧
              (kind.placed ∨ sys.pun child = sys.pun p) then
            ((s.make_process p child).goto p (.par kind nc left)).enqueue sys p child
          else none
      | _ => none
  | .wake p q =>
      if s.May sys p (· = .own) ∧ (s.live q).code.waits then some (s.wake p q) else none
  | .free p q => if s.May sys p (· = .own) then some (s.free p q) else none
  | .yield p => if s.May sys p Code.yields then s.yield sys p else none
  | .sync p =>
      if s.May sys p (· = .own) then (s.parent p).map (s.par_barr_sync p) else none
  | .run p => if s.Runs sys p then s.run sys p else none
  | .interrupt π i =>
      let curr := s.current π
      if (s.live curr).inside = none ∧ !(s.live curr).disabled then
        -- the entry code saves the interrupted context
        some ({ s with
          stackptr := Function.update s.stackptr curr (s.live curr)
          swapped := Function.update s.swapped curr false }.handling curr (some i.handler))
      else none
  | .freeProcess π q =>
      let curr := s.current π
      if sys.pun q = π ∧ (s.live q).code.waits then
        if s.Inside π .timeout then s.freeProcess sys q
        else if s.Inside π .user then
          (s.handling curr (some (.preempt (s.sched_state q = .waiting)))).freeProcess sys q
        else none
      else none
  | .freeAlting π q =>
      if sys.pun q = π ∧ s.Inside π .timeout then some (s.freeAlting (s.current π) q) else none
  | .handle π => (s.live (s.current π)).inside.bind (s.handle sys π (s.current π))

/-- Where the next step of a process in what it is in goes, case by case. -/
inductive Advances (sys : Procs N U) (s : Sched N U) (p : Fin N) : Sched N U → Prop
  | frees {q : Fin N} (hop : (s.live p).op = .freeWaiting q) (halt : s.alt_state q = .waiting) :
      Advances sys s p ((s.altReady q).doing p (.schedule q))
  | freed {q : Fin N} (hop : (s.live p).op = .freeWaiting q) (halt : s.alt_state q ≠ .waiting) :
      Advances sys s p (s.doing p .none)
  | schedule {q : Fin N} {t : Sched N U} (hop : (s.live p).op = .schedule q)
      (hschedule : (s.doing p .enable).schedule0 sys (sys.pun p) q = some t) : Advances sys s p t
  | enable (hop : (s.live p).op = .enable) : Advances sys s p (s.doing p .none)
  | waits (hop : (s.live p).op = .none) (hcode : (s.live p).code = .prepared)
      (hstate : s.sched_state p = .preparingToWait) :
      Advances sys s p ({ s with
        sched_state := Function.update s.sched_state p .waiting }.goto p (.relinquish .sched))
  | woken (hop : (s.live p).op = .none) (hcode : (s.live p).code = .prepared)
      (hstate : s.sched_state p ≠ .preparingToWait) : Advances sys s p (s.goto p .own)
  | altWaits (hop : (s.live p).op = .none) (hcode : (s.live p).code = .enabling)
      (halt : s.alt_state p = .enabling) :
      Advances sys s p ({ s with
        alt_state := Function.update s.alt_state p .waiting }.goto p (.relinquish .alt))
  | altReady (hop : (s.live p).op = .none) (hcode : (s.live p).code = .enabling)
      (halt : s.alt_state p ≠ .enabling) : Advances sys s p (s.goto p .disabling)
  | disabling (hop : (s.live p).op = .none) (hcode : (s.live p).code = .disabling) :
      Advances sys s p
        ({ s with alt_state := Function.update s.alt_state p .none }.goto p .own)
  | parWaits {kind : ParKind} {nc : Nat} (hop : (s.live p).op = .none)
      (hcode : (s.live p).code = .par kind nc 0) (hstate : s.sched_state p = .preparingToWait) :
      Advances sys s p ({ s with
        sched_state := Function.update s.sched_state p .waiting }.goto p (.relinquish (.par nc)))
  | parWoken {kind : ParKind} {nc : Nat} (hop : (s.live p).op = .none)
      (hcode : (s.live p).code = .par kind nc 0) (hstate : s.sched_state p ≠ .preparingToWait) :
      Advances sys s p (s.goto p .own)
  | relinquish {w : Wait} {t : Sched N U} (hop : (s.live p).op = .none)
      (hcode : (s.live p).code = .relinquish w)
      (hrelinquish : s.relinquish_unconditional sys p w = some t) : Advances sys s p t
  | switched {w : Wait} (hop : (s.live p).op = .none) (hcode : (s.live p).code = .switched w) :
      Advances sys s p (s.goto p w.after)
  | ending (hop : (s.live p).op = .none) (hcode : (s.live p).code = .ending) :
      Advances sys s p { s with
        stackptr := Function.update s.stackptr p ⟨.finishing, .none, none⟩
        live := Function.update s.live p ⟨.finishing, .none, none⟩ }
  | finishing {t : Sched N U} (hop : (s.live p).op = .none)
      (hcode : (s.live p).code = .finishing) (hfinish : s.finish_termination sys p = some t) :
      Advances sys s p t

/-- What a step takes, and where it goes: one case for each action, two for a
handler that frees a process. -/
inductive Steps (sys : Procs N U) (s : Sched N U) : SchedAct N U → Sched N U → Prop
  | prepare {p : Fin N} (hmay : s.May sys p (· = .own)) :
      Steps sys s (.prepare p) ({ s with
        sched_state := Function.update s.sched_state p .preparingToWait }.goto p .prepared)
  | select {p : Fin N} (hmay : s.May sys p (· = .own)) :
      Steps sys s (.select p)
        ({ s with alt_state := Function.update s.alt_state p .enabling }.goto p .enabling)
  | found {p : Fin N} (hmay : s.May sys p (· = .enabling)) :
      Steps sys s (.found p) (s.goto p .disabling)
  | par {p : Fin N} {kind : ParKind} {nc : Nat} (hmay : s.May sys p (· = .own))
      (haccepts : kind.accepts (sys.pri p) nc) : Steps sys s (.par p kind nc) (s.par p kind nc)
  | build {p child : Fin N} {kind : ParKind} {nc left : Nat} {t : Sched N U}
      (hcode : (s.live p).code = .par kind nc (left + 1)) (hmay : s.May sys p (fun _ => true))
      (hunborn : (s.live child).code = .unborn)
      (hpri : sys.pri child = kind.child_pri (sys.pri p) (nc - (left + 1)))
      (hpun : kind.placed ∨ sys.pun child = sys.pun p)
      (henqueue : ((s.make_process p child).goto p (.par kind nc left)).enqueue sys p child =
        some t) : Steps sys s (.build p child) t
  | wake {p q : Fin N} (hmay : s.May sys p (· = .own)) (hwaits : (s.live q).code.waits) :
      Steps sys s (.wake p q) (s.wake p q)
  | free {p q : Fin N} (hmay : s.May sys p (· = .own)) : Steps sys s (.free p q) (s.free p q)
  | yield {p : Fin N} {t : Sched N U} (hmay : s.May sys p Code.yields)
      (hyield : s.yield sys p = some t) : Steps sys s (.yield p) t
  | sync {p parent : Fin N} (hmay : s.May sys p (· = .own)) (hparent : s.parent p = some parent) :
      Steps sys s (.sync p) (s.par_barr_sync p parent)
  | run {p : Fin N} {t : Sched N U} (hruns : s.Runs sys p) (hrun : s.run sys p = some t) :
      Steps sys s (.run p) t
  | interrupt {π : Fin U} {i : Interrupt} (hinside : (s.live (s.current π)).inside = none)
      (henabled : (s.live (s.current π)).disabled = false) :
      Steps sys s (.interrupt π i) ({ s with
        stackptr := Function.update s.stackptr (s.current π) (s.live (s.current π))
        swapped := Function.update s.swapped (s.current π) false }.handling (s.current π)
          (some i.handler))
  | timeout {π : Fin U} {q : Fin N} {t : Sched N U} (hpun : sys.pun q = π)
      (hwaits : (s.live q).code.waits) (hinside : s.Inside π .timeout)
      (hfree : s.freeProcess sys q = some t) : Steps sys s (.freeProcess π q) t
  | transmit {π : Fin U} {q : Fin N} {t : Sched N U} (hpun : sys.pun q = π)
      (hwaits : (s.live q).code.waits) (hinside : s.Inside π .user)
      (hfree : (s.handling (s.current π)
        (some (.preempt (s.sched_state q = .waiting)))).freeProcess sys q = some t) :
      Steps sys s (.freeProcess π q) t
  | freeAlting {π : Fin U} {q : Fin N} (hpun : sys.pun q = π) (hinside : s.Inside π .timeout) :
      Steps sys s (.freeAlting π q) (s.freeAlting (s.current π) q)
  | handle {π : Fin U} {h : Handler N} {t : Sched N U} (hinside : s.Inside π h)
      (hhandle : s.handle sys π (s.current π) h = some t) : Steps sys s (.handle π) t

/-- After `initialize`: the initial process runs, and every other processor
idles. -/
def init (sys : Procs N U) : Sched N U where
  queues :=
    { next := fun _ => none
      head := fun π => if π = sys.pun sys.initial then some (sys.idler π) else none
      ipq := fun _ => []
      kept := true }
  current := fun π => if π = sys.pun sys.initial then sys.initial else sys.idler π
  sched_state := fun _ => .waiting
  alt_state := fun _ => .none
  children := fun _ => 0
  parent := fun _ => none
  live := fun p => ⟨if p = sys.initial ∨ sys.idler (sys.pun p) = p then .own else .unborn,
    .none, none⟩
  stackptr := fun p => ⟨if p = sys.initial ∨ sys.idler (sys.pun p) = p then .own else .unborn,
    .none, none⟩
  lost := fun p => ⟨if p = sys.initial ∨ sys.idler (sys.pun p) = p then .own else .unborn,
    .none, none⟩
  swapped := fun _ => false

section Steps

variable {sys : Procs N U} {s t : Sched N U} {act : SchedAct N U} {p : Fin N} {c : Code}
  {π : Fin U} {h : Handler N}

/-- Where a process stands that may do something new. -/
theorem May.code_eq (hmay : s.May sys p (· = c)) : (s.live p).code = c :=
  of_decide_eq_true hmay.2.2.1

theorem Inside.ne_none (hin : s.Inside π h) : (s.live (s.current π)).inside ≠ none := by
  intro hnone
  cases hin.symm.trans hnone

/-- **A process in something goes on in one of these ways.** -/
theorem run_cases (hstep : s.run sys p = some t) : Advances sys s p t := by
  unfold run at hstep
  split at hstep
  next q hop =>
    split at hstep <;> cases hstep
    · exact .frees hop ‹_›
    · exact .freed hop ‹_›
  next q hop => exact .schedule hop hstep
  next hop =>
    cases hstep
    exact .enable hop
  next hop =>
    split at hstep
    next hcode =>
      split at hstep <;> cases hstep
      · exact .waits hop hcode ‹_›
      · exact .woken hop hcode ‹_›
    next hcode =>
      split at hstep <;> cases hstep
      · exact .altWaits hop hcode ‹_›
      · exact .altReady hop hcode ‹_›
    next hcode =>
      cases hstep
      exact .disabling hop hcode
    next hcode =>
      split at hstep <;> cases hstep
      · exact .parWaits hop hcode ‹_›
      · exact .parWoken hop hcode ‹_›
    next w hcode => exact .relinquish hop hcode hstep
    next w hcode =>
      cases hstep
      exact .switched hop hcode
    next hcode =>
      cases hstep
      exact .ending hop hcode
    next hcode => exact .finishing hop hcode hstep
    next => cases hstep

/-- **Every step is one of these.** -/
theorem step_cases (hstep : s.step sys act = some t) : Steps sys s act t := by
  cases act with
  | prepare p =>
      obtain ⟨hmay, ht⟩ := Option.ite_none_right_eq_some.mp hstep
      cases ht
      exact .prepare hmay
  | select p =>
      obtain ⟨hmay, ht⟩ := Option.ite_none_right_eq_some.mp hstep
      cases ht
      exact .select hmay
  | found p =>
      obtain ⟨hmay, ht⟩ := Option.ite_none_right_eq_some.mp hstep
      cases ht
      exact .found hmay
  | par p kind nc =>
      obtain ⟨⟨hmay, haccepts⟩, ht⟩ := Option.ite_none_right_eq_some.mp hstep
      cases ht
      exact .par hmay haccepts
  | build p child =>
      simp only [step] at hstep
      split at hstep
      next kind nc left hcode =>
        obtain ⟨⟨hmay, hunborn, hpri, hpun⟩, ht⟩ := Option.ite_none_right_eq_some.mp hstep
        exact .build hcode hmay hunborn hpri hpun ht
      next => cases hstep
  | wake p q =>
      obtain ⟨⟨hmay, hwaits⟩, ht⟩ := Option.ite_none_right_eq_some.mp hstep
      cases ht
      exact .wake hmay hwaits
  | free p q =>
      obtain ⟨hmay, ht⟩ := Option.ite_none_right_eq_some.mp hstep
      cases ht
      exact .free hmay
  | yield p =>
      obtain ⟨hmay, ht⟩ := Option.ite_none_right_eq_some.mp hstep
      exact .yield hmay ht
  | sync p =>
      obtain ⟨hmay, ht⟩ := Option.ite_none_right_eq_some.mp hstep
      obtain ⟨parent, hparent, rfl⟩ := Option.map_eq_some_iff.mp ht
      exact .sync hmay hparent
  | run p =>
      obtain ⟨hruns, ht⟩ := Option.ite_none_right_eq_some.mp hstep
      exact .run hruns ht
  | interrupt π i =>
      obtain ⟨⟨hinside, henabled⟩, ht⟩ := Option.ite_none_right_eq_some.mp hstep
      cases ht
      exact .interrupt hinside (by simpa using henabled)
  | freeProcess π q =>
      obtain ⟨⟨hpun, hwaits⟩, ht⟩ := Option.ite_none_right_eq_some.mp hstep
      split at ht
      next hinside => exact .timeout hpun hwaits hinside ht
      next =>
        obtain ⟨hinside, ht⟩ := Option.ite_none_right_eq_some.mp ht
        exact .transmit hpun hwaits hinside ht
  | freeAlting π q =>
      obtain ⟨⟨hpun, hinside⟩, ht⟩ := Option.ite_none_right_eq_some.mp hstep
      cases ht
      exact .freeAlting hpun hinside
  | handle π =>
      obtain ⟨i, hinside, ht⟩ := Option.bind_eq_some_iff.mp hstep
      exact .handle hinside ht

end Steps

section Start

theorem idler_ne_initial (sys : Procs N U) (π : Fin U) : sys.idler π ≠ sys.initial := by
  intro heq
  have hpri := sys.pri_idler π
  rw [heq, sys.pri_initial] at hpri
  exact absurd hpri (by decide)

theorem chain_init (sys : Procs N U) (π : Fin U) :
    LinkedChain.Chain (init sys).queues.next ((init sys).queues.head π)
      (if π = sys.pun sys.initial then [sys.idler π] else []) := by
  by_cases hπ : π = sys.pun sys.initial
  · simp [init, hπ]
  · simp [init, hπ]

/-- The idle process of the first processor is the only one linked. -/
theorem links_init (sys : Procs N U) (π : Fin U) :
    (init sys).queues.links π = if π = sys.pun sys.initial then [sys.idler π] else [] :=
  Queues.links_of_chain (chain_init sys π)

theorem chained_init (sys : Procs N U) : Queues.Chained sys (init sys).queues := by
  refine ⟨fun π => ?_, fun π => ?_, fun π p hp => ?_, by simp [init]⟩
  · rw [links_init]
    exact chain_init sys π
  · rw [links_init]
    split <;> simp
  · rw [links_init] at hp
    split at hp
    · rw [List.mem_singleton.mp hp, sys.pun_idler]
    · cases hp

theorem pun_current_init (sys : Procs N U) (π : Fin U) :
    sys.pun ((init sys).current π) = π := by
  simp only [init]
  split
  next hπ => exact hπ.symm
  next => exact sys.pun_idler π

end Start

end Sched

end Cxp
