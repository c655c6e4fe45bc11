import Cxp.Rendezvous
import Cxp.RunInduction
import Cxp.TimerQueue

/-!
# Channels and alternations (`comm.c`, `alt.c`)

`N` processes on `U` processors call `in`, `out` and the two selects on
channels that have one writer and one reader each.  A step is a critical
section of a channel's mutex, an atomic operation on a state field, one
operation on a timer queue, or a call of `schedule`, which makes a process
runnable.  Timeout interrupts may come at any moment on any processor.

`priSelect` and `fairSelect` differ in the guard they start at only: `k`
counts the guards from there, and the `k`-th one is at `(start + k) % nrGuards`.
-/

namespace Cxp

open Timers

/-- A guard of an alternation; `GUARD_INTERRUPT` has no case in the selects. -/
inductive Guard (Chan : Type)
  | chan (channel : Chan)
  | skip
  | timer (time : Int)
  deriving DecidableEq

/-- A call of a select: the guards, and the one it starts at, which is 0 for
`priSelect` and the alternation's `favorite` for `fairSelect`. -/
structure Select (Chan : Type) where
  guards : List (Guard Chan)
  start : Nat
  deriving DecidableEq

namespace Select

variable {Chan : Type}

/-- `nrGuards`. -/
def size (f : Select Chan) : Nat := f.guards.length

/-- The index of the `k`-th guard looked at. -/
def index (f : Select Chan) (k : Nat) : Nat := (f.start + k) % f.size

/-- The `k`-th guard looked at. -/
def guard (f : Select Chan) (k : Nat) : Option (Guard Chan) :=
  if k < f.size then f.guards[f.index k]? else none

/-- `MAX_TIME`, as the signed number that a `Time` makes of it. -/
def NO_TIME : Int := -1

/-- The earliest timeout of the alternation, as the enabling loop finds it. -/
def earliest (f : Select Chan) : Int :=
  f.guards.foldl
    (fun earliest guard =>
      match guard with
      | .timer time => if time < earliest then time else earliest
      | _ => earliest)
    NO_TIME

/-- The channel is among the first `k` guards. -/
def Active (f : Select Chan) (k : Nat) (c : Chan) : Prop :=
  ∃ j, j < k ∧ f.guard j = some (.chan c)

instance [DecidableEq Chan] (f : Select Chan) (k : Nat) (c : Chan) :
    Decidable (f.Active k c) :=
  inferInstanceAs (Decidable (∃ j, j < k ∧ f.guard j = some (.chan c)))

end Select

/-- The channels' users: each channel has one writer and one reader. -/
structure Net (N : Nat) (Chan : Type) where
  role : Chan → End → Fin N
  distinct : ∀ c, role c .input ≠ role c .output

/-- The guard is not for a channel that another process reads. -/
def Guard.readBy {N : Nat} {Chan : Type} (net : Net N Chan) (p : Fin N) :
    Guard Chan → Bool
  | .chan c => net.role c .input = p
  | _ => true

/-- Where a process stands. -/
inductive Pc (N : Nat) (Chan : Type)
  /-- in its own code -/
  | idle
  /-- about to enter the critical section of `in` or `out` -/
  | call (e : End) (c : Chan)
  /-- has transferred the data, about to exchange the `sched_state` of `q` -/
  | wake (e : End) (c : Chan) (q : Fin N)
  /-- found `q` waiting, about to schedule it -/
  | schedule (e : End) (c : Chan) (q : Fin N)
  /-- in `freeProcessMaybe(q)`, about to try Enabling to Ready -/
  | free (c : Chan) (q : Fin N)
  /-- in `freeProcessMaybe(q)`, found Waiting, about to try Waiting to Ready -/
  | freeWaiting (c : Chan) (q : Fin N)
  /-- in `freeProcessMaybe(q)`, about to schedule `q` -/
  | freeSchedule (c : Chan) (q : Fin N)
  /-- about to call `relinquish` -/
  | relinquish (e : End) (c : Chan)
  /-- has given up the processor in `relinquish` -/
  | wait (e : End) (c : Chan)
  /-- in a select, about to enable the `k`-th guard -/
  | enable (f : Select Chan) (k : Nat)
  /-- enabling a timer, about to allocate a descriptor -/
  | fill (f : Select Chan) (k : Nat) (time : Int)
  /-- enabling a timer, about to insert the descriptor -/
  | insert (f : Select Chan) (k : Nat) (desc : DescRef N)
  /-- about to try Enabling to Waiting -/
  | shouldWait (f : Select Chan)
  /-- has given up the processor in `relinquish_unconditional` -/
  | altWait (f : Select Chan)
  /-- about to disable the last of the first `k` guards -/
  | disable (f : Select Chan) (k : Nat) (selected : Option Nat)
  /-- disabling a timer, about to remove its entry -/
  | remove (f : Select Chan) (k : Nat) (selected : Option Nat) (time : Int)
  /-- disabling a timer, about to release a descriptor -/
  | release (f : Select Chan) (k : Nat) (selected : Option Nat) (desc : DescRef N)
  /-- about to mark itself finished with the alternation -/
  | finish (f : Select Chan) (selected : Option Nat)
  /-- returning from the select; `none` is the index -1 -/
  | selected (f : Select Chan) (selected : Option Nat)
  deriving DecidableEq

/-- A timeout that a handler has taken off: its process, its time, and how
many selects that process had begun by then. -/
structure Expired (N : Nat) where
  proc : Fin N
  time : Int
  select : Nat
  deriving DecidableEq

/-- Where the timeout interrupt handler of a processor stands. -/
inductive HandlerPc (N : Nat)
  | idle
  /-- at the head of the loop, `now` having been read -/
  | loop (now : Int)
  /-- in `maybeFreeAltingProcess`, about to try Enabling to Ready -/
  | free (x : Expired N) (now : Int)
  /-- found Waiting, about to try Waiting to Ready -/
  | freeWaiting (x : Expired N) (now : Int)
  /-- about to enqueue `r` -/
  | enqueue (r : Fin N) (now : Int)
  deriving DecidableEq

/-- Processes, channels, timers.  A pointer into a process's buffer is that
process.  The last eight fields are histories: the messages passed to `out`,
stored by a `memcpy`, and found in the destination when `in` returned, the
number of calls of `out` that returned, the number of selects a process has
begun, and for the last of them the number of times it was scheduled for a
guard, whether it went to Waiting, and whether a timeout of its that was taken
off meanwhile has been processed. -/
structure Comm (N U : Nat) (Chan Msg : Type) where
  waiting : Chan → Option (Fin N)
  ptr : Chan → Option (Fin N)
  sched_state : Fin N → SchedState
  alt_state : Fin N → AltState
  runnable : Fin N → Bool
  pc : Fin N → Pc N Chan
  src : Fin N → Msg
  dest : Fin N → Msg
  tm : Timers N U
  clock : Int
  handler : Fin U → HandlerPc N
  outs : Chan → List Msg
  stored : Chan → List Msg
  received : Chan → List Msg
  outsDone : Chan → Nat
  selects : Fin N → Nat
  scheds : Fin N → Nat
  waited : Fin N → Bool
  fired : Fin N → Bool

/-- What happens next. -/
inductive CommAct (N U : Nat) (Chan Msg : Type)
  | in (c : Chan)
  | out (c : Chan) (msg : Msg)
  | select (p : Fin N) (f : Select Chan)
  /-- the next step of the call that `p` is in -/
  | run (p : Fin N)
  | tick (δ : Nat)
  | interrupt (π : Fin U)
  /-- the next step of the interrupt handler -/
  | handle (π : Fin U)

variable {N U : Nat} {Chan Msg : Type} [DecidableEq Chan]

namespace Comm

/-- Everything initialised, nothing called yet.  The memory holds `msg` in all
buffers. -/
def init (N U : Nat) (Chan : Type) {Msg : Type} (proc : Fin N) (msg : Msg) :
    Comm N U Chan Msg where
  waiting := fun _ => none
  ptr := fun _ => none
  sched_state := fun _ => .ready
  alt_state := fun _ => .none
  runnable := fun _ => true
  pc := fun _ => .idle
  src := fun _ => msg
  dest := fun _ => msg
  tm := timer_init proc .alting
  clock := 0
  handler := fun _ => .idle
  outs := fun _ => []
  stored := fun _ => []
  received := fun _ => []
  outsDone := fun _ => 0
  selects := fun _ => 0
  scheds := fun _ => 0
  waited := fun _ => false
  fired := fun _ => false

/-- A process goes on at `pc`. -/
def goto (s : Comm N U Chan Msg) (p : Fin N) (pc : Pc N Chan) :
    Comm N U Chan Msg :=
  { s with pc := Function.update s.pc p pc }

/-- `in` or `out` returns. -/
def ret (s : Comm N U Chan Msg) (p : Fin N) (e : End) (c : Chan) :
    Comm N U Chan Msg :=
  match e with
  | .input =>
      { s.goto p .idle with
        received := Function.update s.received c (s.received c ++ [s.dest p]) }
  | .output =>
      { s.goto p .idle with
        outsDone := Function.update s.outsDone c (s.outsDone c + 1) }

/-- Register at a channel with a buffer and `PREPARE_TO_WAIT`. -/
def await (s : Comm N U Chan Msg) (p : Fin N) (c : Chan) : Comm N U Chan Msg :=
  { s with
    waiting := Function.update s.waiting c (some p)
    ptr := Function.update s.ptr c (some p)
    sched_state := Function.update s.sched_state p .preparingToWait }

/-- Nobody is registered at the channel any more, and `msg` is stored. -/
def transfer (s : Comm N U Chan Msg) (c : Chan) (q : Fin N) (msg : Msg) :
    Comm N U Chan Msg :=
  { s with
    dest := Function.update s.dest q msg
    waiting := Function.update s.waiting c none
    ptr := Function.update s.ptr c none
    stored := Function.update s.stored c (s.stored c ++ [msg]) }

/-- The critical section of `in`; `none` would be a copy from a null pointer. -/
def «in» (s : Comm N U Chan Msg) (p : Fin N) (c : Chan) :
    Option (Comm N U Chan Msg) :=
  match s.waiting c with
  | some wasWaiting =>
      (s.ptr c).map fun src =>
        (s.transfer c p (s.src src)).goto p (.wake .input c wasWaiting)
  | none => some ((s.await p c).goto p (.relinquish .input c))

/-- The critical section of `out`. -/
def out (s : Comm N U Chan Msg) (p : Fin N) (c : Chan) : Comm N U Chan Msg :=
  match s.waiting c with
  | some wasWaiting =>
      match s.ptr c with
      | some dest =>
          (s.transfer c dest (s.src p)).goto p (.wake .output c wasWaiting)
      | none => (s.await p c).goto p (.free c wasWaiting)
  | none => (s.await p c).goto p (.relinquish .output c)

/-- `enable_channel`, and whether the channel is ready. -/
def enable_channel (s : Comm N U Chan Msg) (c : Chan) (p : Fin N) :
    Comm N U Chan Msg × Bool :=
  match s.waiting c with
  | some q => (s, q ≠ p)
  | none =>
      ({ s with
          waiting := Function.update s.waiting c (some p)
          ptr := Function.update s.ptr c none }, false)

/-- `disable_channel`, and whether the channel is ready. -/
def disable_channel (s : Comm N U Chan Msg) (c : Chan) (p : Fin N) :
    Comm N U Chan Msg × Bool :=
  if s.waiting c ≠ none ∧ s.waiting c ≠ some p then (s, true)
  else ({ s with waiting := Function.update s.waiting c none }, false)

/-- Where the enabling loop goes after a guard that is not ready. -/
def enabled (f : Select Chan) (k : Nat) : Pc N Chan :=
  if k < f.size then .enable f (k + 1) else .shouldWait f

/-- The readiness check of `enable_timeout`. -/
def enable_timeout (s : Comm N U Chan Msg) (f : Select Chan) (k : Nat)
    (time : Int) : Pc N Chan :=
  if s.clock ≥ time then .disable f (min (k + 1) f.size) none else .fill f k time

/-- The next round of the enabling loop, or the second enabling of the
earliest timeout behind it. -/
def enable (s : Comm N U Chan Msg) (p : Fin N) (f : Select Chan) (k : Nat) :
    Comm N U Chan Msg :=
  match f.guard k with
  | some (.chan c) =>
      let r := s.enable_channel c p
      r.1.goto p (if r.2 then .disable f (k + 1) none else .enable f (k + 1))
  | some .skip => s.goto p (.disable f (k + 1) none)
  | some (.timer time) => s.goto p (s.enable_timeout f k time)
  | none =>
      s.goto p (if f.earliest ≠ Select.NO_TIME then s.enable_timeout f f.size f.earliest
        else .shouldWait f)

/-- The next round of the disabling loop. -/
def disable (s : Comm N U Chan Msg) (p : Fin N) (f : Select Chan)
    (selected : Option Nat) : Nat → Option (Comm N U Chan Msg)
  | 0 => some (s.goto p (.finish f selected))
  | k + 1 =>
      match f.guard k with
      | some (.chan c) =>
          let r := s.disable_channel c p
          some (r.1.goto p (.disable f k (if r.2 then some (f.index k) else selected)))
      | some .skip => some (s.goto p (.disable f k (some (f.index k))))
      | some (.timer time) =>
          some (s.goto p (.remove f k
            (if s.clock ≥ time then some (f.index k) else selected) time))
      | none => none

/-- The next step of the call that a process is in. -/
def run (pun : Fin N → Fin U) (s : Comm N U Chan Msg) (p : Fin N) :
    Option (Comm N U Chan Msg) :=
  match s.pc p with
  | .idle => none
  | .call .input c => s.in p c
  | .call .output c => some (s.out p c)
  | .wake e c q =>
      let t := { s with sched_state := Function.update s.sched_state q .ready }
      some (if s.sched_state q = .waiting then t.goto p (.schedule e c q)
        else t.ret p e c)
  | .schedule e c q =>
      some ({ s with runnable := Function.update s.runnable q true }.ret p e c)
  | .free c q =>
      some (match s.alt_state q with
        | .enabling =>
            { s with alt_state := Function.update s.alt_state q .ready }.goto p
              (.relinquish .output c)
        | .waiting => s.goto p (.freeWaiting c q)
        | _ => s.goto p (.relinquish .output c))
  | .freeWaiting c q =>
      some (if s.alt_state q = .waiting then
          { s with alt_state := Function.update s.alt_state q .ready }.goto p
            (.freeSchedule c q)
        else s.goto p (.relinquish .output c))
  | .freeSchedule c q =>
      some ({ s with
          runnable := Function.update s.runnable q true
          scheds := Function.update s.scheds q (s.scheds q + 1) }.goto p
        (.relinquish .output c))
  | .relinquish e c =>
      some (if s.sched_state p = .preparingToWait then
          { s with
            sched_state := Function.update s.sched_state p .waiting
            runnable := Function.update s.runnable p false }.goto p (.wait e c)
        else s.ret p e c)
  | .wait e c => if s.runnable p then some (s.ret p e c) else none
  | .enable f k => some (s.enable p f k)
  | .fill f k time =>
      let r := s.tm.allocate_mem
      some ({ s with tm := r.2.fill r.1 time p .alting }.goto p (.insert f k r.1))
  | .insert f k desc =>
      (s.tm.insertInQueue (pun p) desc).map fun r =>
        { s with tm := r.1 }.goto p (enabled f k)
  | .shouldWait f =>
      some (if s.alt_state p = .enabling then
          { s with
            alt_state := Function.update s.alt_state p .waiting
            runnable := Function.update s.runnable p false
            waited := Function.update s.waited p true }.goto p (.altWait f)
        else s.goto p (.disable f f.size none))
  | .altWait f =>
      if s.runnable p then some (s.goto p (.disable f f.size none)) else none
  | .disable f k selected => s.disable p f selected k
  | .remove f k selected time =>
      (s.tm.removeFromQueue (pun p) time p).map fun r =>
        { s with tm := r.1 }.goto p
          (match r.2 with
            | some desc => .release f k selected desc
            | none => .disable f k selected)
  | .release f k selected desc =>
      some ({ s with tm := s.tm.release_mem desc }.goto p (.disable f k selected))
  | .finish f selected =>
      some ({ s with alt_state := Function.update s.alt_state p .none }.goto p
        (.selected f selected))
  | .selected _ _ => some (s.goto p .idle)

/-- The interrupt handler of a processor goes on at `pc`. -/
def handlerGoto (s : Comm N U Chan Msg) (π : Fin U) (pc : HandlerPc N) :
    Comm N U Chan Msg :=
  { s with handler := Function.update s.handler π pc }

/-- `maybeFreeAltingProcess` has done what it had to do for a timeout. -/
def processed (s : Comm N U Chan Msg) (x : Expired N) : Comm N U Chan Msg :=
  { s with
    fired := if x.select = s.selects x.proc then Function.update s.fired x.proc true
      else s.fired }

/-- The next step of `handle_timeout_interrupt`. -/
def handle (s : Comm N U Chan Msg) (π : Fin U) : Option (Comm N U Chan Msg) :=
  match s.handler π with
  | .idle => none
  | .loop now =>
      some (match s.tm.head π with
        | none => s.handlerGoto π .idle
        | some head =>
            if s.tm.time head ≤ now then
              let t := { s with tm := s.tm.removeHead π head }
              let proc := s.tm.proc head
              match s.tm.type head with
              | .alting =>
                  t.handlerGoto π (.free ⟨proc, s.tm.time head, s.selects proc⟩ now)
              | .after =>
                  { t with
                    sched_state := Function.update s.sched_state proc .ready
                    runnable := if s.sched_state proc = .waiting then
                        Function.update s.runnable proc true
                      else s.runnable }
            else s.handlerGoto π .idle)
  | .free x now =>
      some (match s.alt_state x.proc with
        | .enabling =>
            ({ s with
                alt_state := Function.update s.alt_state x.proc .ready }.processed
              x).handlerGoto π (.loop now)
        | .waiting => s.handlerGoto π (.freeWaiting x now)
        | _ => (s.processed x).handlerGoto π (.loop now))
  | .freeWaiting x now =>
      some (if s.alt_state x.proc = .waiting then
          ({ s with
              alt_state := Function.update s.alt_state x.proc .ready }.processed
            x).handlerGoto π (.enqueue x.proc now)
        else (s.processed x).handlerGoto π (.loop now))
  | .enqueue r now =>
      some ({ s with
          runnable := Function.update s.runnable r true
          scheds := Function.update s.scheds r (s.scheds r + 1) }.handlerGoto π
        (.loop now))

/-- One step.  A process calls `in` and `out` on channels of its own only, and
selects over channels that it reads. -/
def step (net : Net N Chan) (pun : Fin N → Fin U) (s : Comm N U Chan Msg) :
    CommAct N U Chan Msg → Option (Comm N U Chan Msg)
  | .in c =>
      let p := net.role c .input
      if s.pc p = .idle then some (s.goto p (.call .input c)) else none
  | .out c msg =>
      let p := net.role c .output
      if s.pc p = .idle then
        some ({ s with
            src := Function.update s.src p msg
            outs := Function.update s.outs c (s.outs c ++ [msg]) }.goto p
          (.call .output c))
      else none
  | .select p f =>
      if s.pc p = .idle ∧ f.guards.all (·.readBy net p) then
        some ({ s with
            alt_state := Function.update s.alt_state p .enabling
            selects := Function.update s.selects p (s.selects p + 1)
            scheds := Function.update s.scheds p 0
            waited := Function.update s.waited p false
            fired := Function.update s.fired p false }.goto p (.enable f 0))
      else none
  | .run p => s.run pun p
  | .tick δ => some { s with clock := s.clock + δ }
  | .interrupt π =>
      if s.handler π = .idle then some (s.handlerGoto π (.loop s.clock)) else none
  | .handle π => s.handle π

/-- What a step takes, and where it goes. -/
inductive Steps (net : Net N Chan) (pun : Fin N → Fin U) (s : Comm N U Chan Msg) :
    CommAct N U Chan Msg → Comm N U Chan Msg → Prop
  | «in» {c : Chan} (hidle : s.pc (net.role c .input) = .idle) :
      Steps net pun s (.in c) (s.goto (net.role c .input) (.call .input c))
  | out {c : Chan} {msg : Msg} (hidle : s.pc (net.role c .output) = .idle) :
      Steps net pun s (.out c msg)
        ({ s with
          src := Function.update s.src (net.role c .output) msg
          outs := Function.update s.outs c (s.outs c ++ [msg]) }.goto (net.role c .output)
            (.call .output c))
  | select {p : Fin N} {f : Select Chan} (hidle : s.pc p = .idle)
      (hguards : f.guards.all (·.readBy net p)) :
      Steps net pun s (.select p f)
        ({ s with
          alt_state := Function.update s.alt_state p .enabling
          selects := Function.update s.selects p (s.selects p + 1)
          scheds := Function.update s.scheds p 0
          waited := Function.update s.waited p false
          fired := Function.update s.fired p false }.goto p (.enable f 0))
  | run {p : Fin N} {t : Comm N U Chan Msg} (hrun : s.run pun p = some t) :
      Steps net pun s (.run p) t
  | tick {δ : Nat} : Steps net pun s (.tick δ) { s with clock := s.clock + δ }
  | interrupt {π : Fin U} (hidle : s.handler π = .idle) :
      Steps net pun s (.interrupt π) (s.handlerGoto π (.loop s.clock))
  | handle {π : Fin U} {t : Comm N U Chan Msg} (hhandle : s.handle π = some t) :
      Steps net pun s (.handle π) t

/-- **Every step is one of these.** -/
theorem step_cases {net : Net N Chan} {pun : Fin N → Fin U} {s t : Comm N U Chan Msg}
    {act : CommAct N U Chan Msg} (hstep : s.step net pun act = some t) :
    Steps net pun s act t := by
  cases act with
  | «in» c =>
      obtain ⟨hidle, ht⟩ := Option.ite_none_right_eq_some.mp hstep
      cases ht
      exact .in hidle
  | out c msg =>
      obtain ⟨hidle, ht⟩ := Option.ite_none_right_eq_some.mp hstep
      cases ht
      exact .out hidle
  | select p f =>
      obtain ⟨⟨hidle, hguards⟩, ht⟩ := Option.ite_none_right_eq_some.mp hstep
      cases ht
      exact .select hidle hguards
  | run p => exact .run hstep
  | tick δ =>
      cases hstep
      exact .tick
  | interrupt π =>
      obtain ⟨hidle, ht⟩ := Option.ite_none_right_eq_some.mp hstep
      cases ht
      exact .interrupt hidle
  | handle π => exact .handle hstep

end Comm

end Cxp
