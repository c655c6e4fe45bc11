import Cxp.SignalMasks
import Cxp.StraightLineThreads
import Cxp.TimerTable

/-!
# The processors start (`hardware.c`, `sched.c`)

A processor is a thread, and an interrupt of it a signal, whose number it takes
from a counter that all share, while it initialises.  Processor 0 initialises
itself in `initialize`, and creates the other threads, which initialise
themselves at the same time.  All meet at a barrier; a process runs only on a
processor that has passed it.  Each statement of the initialisation is a step.

* Every processor enters its interrupts in two tables: `interrupt` leads from a
  signal to the interrupt, `signal_no` back.  It takes its own signals out of its
  `sigmask`, which blocks all others.
* What runs on the processors afterwards may disable and enable interrupts, save
  and restore contexts with the signal mask in them, set the timeout timer, and
  send interrupts; which process does so is left open.  A signal may be taken
  wherever the mask of the thread lets it through.
* `plotz` ends the program, and so does a signal that no handler is set for.

What all steps keep is in `BootInvariant`.
-/

namespace Cxp

open Run

/-- The interrupt numbers. -/
inductive Intr
  | elapsed
  | timeout
  | interproc
  | user0
  | user1
  deriving DecidableEq

namespace Intr

instance : Fintype Intr :=
  ⟨{.elapsed, .timeout, .interproc, .user0, .user1}, fun i => by cases i <;> decide⟩

def number : Intr → Nat
  | .elapsed => 0
  | .timeout => 1
  | .interproc => 2
  | .user0 => 3
  | .user1 => 4

/-- `NINTR`. -/
def count : Nat := 5

/-- What kind of interrupt it is for the scheduler. -/
def kind : Intr → Interrupt
  | .elapsed => .elapsed
  | .timeout => .timeout
  | .interproc => .interproc
  | .user0 | .user1 => .user

end Intr

def TimerType.intr : TimerType → Intr
  | .elapsed => .elapsed
  | .timeout => .timeout

/-- The interrupt handlers. -/
inductive IntrHandler
  | handle_elapsed_time_interrupt
  | handle_timeout_interrupt
  | handle_interprocessor_interrupt
  | handle_user_interrupt (uintr : Nat)
  deriving DecidableEq

/-- Which handler is called. -/
def handle_interrupt (inum : Intr) : IntrHandler :=
  if inum = .interproc then .handle_interprocessor_interrupt
  else if inum = .timeout then .handle_timeout_interrupt
  else if inum = .elapsed then .handle_elapsed_time_interrupt
  else .handle_user_interrupt (inum.number - Intr.user0.number)

/-- The statements of the initialisation. -/
inductive BootStmt (U : Nat)
  /-- the thread begins -/
  | begin
  /-- `pthread_setspecific` in `init_processor` -/
  | setspecific
  | thread_id
  /-- `sigemptyset`, and `sigaddset` for the real-time signals -/
  | sigaddset
  -- `define_handler`
  | fetch_add (intr : Intr)
  | intr (intr : Intr)
  | pun (intr : Intr)
  | signal_no (intr : Intr)
  | sigdelset (intr : Intr)
  | sigaction (intr : Intr)
  | init_timer (timerType : TimerType)
  | set_timer_repeating
  /-- `pthread_sigmask` in `init_processor` -/
  | pthread_sigmask
  -- `initialize`
  | set_current
  | make_process (ρ : Fin U)
  | current (ρ : Fin U)
  | pthread_create (ρ : Fin U)
  -- `synchronize_processors`
  | fetch_sub
  | spin
  /-- `setcontext` in `run_process` -/
  | setcontext
  | enable
  deriving DecidableEq

namespace BootStmt

variable {U : Nat}

def define_handler (intr : Intr) : List (BootStmt U) :=
  [.fetch_add intr, .intr intr, .pun intr, .signal_no intr, .sigdelset intr, .sigaction intr]

def define_interrupt_handlers (π : Fin U) : List (BootStmt U) :=
  (if π.val = 0 then define_handler .elapsed ++ [.init_timer .elapsed, .set_timer_repeating]
    else []) ++
  define_handler .timeout ++ [.init_timer .timeout] ++ define_handler .interproc ++
  define_handler .user0 ++ define_handler .user1

def init_processor (π : Fin U) : List (BootStmt U) :=
  [.setspecific, .thread_id, .sigaddset] ++ define_interrupt_handlers π ++ [.pthread_sigmask]

def synchronize_processors : List (BootStmt U) := [.fetch_sub, .spin]

/-- What the thread of another processor does before its idle process halts. -/
def run_process (π : Fin U) : List (BootStmt U) :=
  [.begin] ++ init_processor π ++ synchronize_processors ++ [.setcontext, .enable]

/-- The idle process of another processor is built, and the processor activated. -/
def activate_processor (ρ : Fin U) : List (BootStmt U) :=
  [.make_process ρ, .current ρ, .pthread_create ρ]

/-- From where `hardware_init` has returned. -/
def initializes (π : Fin U) : List (BootStmt U) :=
  init_processor π ++ [.set_current] ++
  ((List.finRange U).filter (·.val ≠ 0)).flatMap activate_processor ++
  synchronize_processors ++ [.enable]

/-- What each thread executes. -/
def program (π : Fin U) : List (BootStmt U) :=
  if π.val = 0 then initializes π else run_process π

/-- The processor has this interrupt. -/
def Defines (π : Fin U) (i : Intr) : Prop := i = .elapsed → π.val = 0

instance (π : Fin U) (i : Intr) : Decidable (Defines π i) :=
  inferInstanceAs (Decidable (_ → _))

/-- The thread has this statement to execute. -/
def Belongs (π : Fin U) : BootStmt U → Prop
  | .begin | .setcontext => π.val ≠ 0
  | .set_current | .set_timer_repeating => π.val = 0
  | .make_process ρ | .current ρ | .pthread_create ρ => π.val = 0 ∧ ρ.val ≠ 0
  | .fetch_add i | .intr i | .pun i | .signal_no i | .sigdelset i | .sigaction i => Defines π i
  | .init_timer t => Defines π t.intr
  | _ => True

theorem mem_init_processor {π : Fin U} {s : BootStmt U} :
    s ∈ init_processor π ↔
      (s = .setspecific ∨ s = .thread_id ∨ s = .sigaddset) ∨
      (π.val = 0 ∧ (s ∈ define_handler .elapsed ∨ s = .init_timer .elapsed ∨
        s = .set_timer_repeating)) ∨
      s ∈ define_handler .timeout ∨ s = .init_timer .timeout ∨ s ∈ define_handler .interproc ∨
      s ∈ define_handler .user0 ∨ s ∈ define_handler .user1 ∨ s = .pthread_sigmask := by
  by_cases hπ : π.val = 0 <;>
    simp [init_processor, define_interrupt_handlers, hπ, -List.cons_append, or_assoc]

theorem mem_program {π : Fin U} {s : BootStmt U} : s ∈ program π ↔ Belongs π s := by
  by_cases hπ : π.val = 0
  all_goals
    simp only [program, initializes, run_process, hπ, if_true, if_false, List.mem_append,
      mem_init_processor, define_handler]
    cases s with
    | fetch_add i | intr i | pun i | signal_no i | sigdelset i | sigaction i | init_timer i =>
        cases i <;> simp [synchronize_processors, activate_processor, Belongs, Defines,
          TimerType.intr, hπ]
    | _ => simp [synchronize_processors, activate_processor, Belongs, hπ]

/-- Where a statement stands among those of its thread. -/
def rank : BootStmt U → Nat
  | .begin => 0
  | .setspecific => 1
  | .thread_id => 2
  | .sigaddset => 3
  | .fetch_add i => 10 * i.number + 10
  | .intr i => 10 * i.number + 11
  | .pun i => 10 * i.number + 12
  | .signal_no i => 10 * i.number + 13
  | .sigdelset i => 10 * i.number + 14
  | .sigaction i => 10 * i.number + 15
  | .init_timer t => 10 * t.intr.number + 16
  | .set_timer_repeating => 17
  | .pthread_sigmask => 60
  | .set_current => 61
  | .make_process ρ => 3 * ρ.val + 62
  | .current ρ => 3 * ρ.val + 63
  | .pthread_create ρ => 3 * ρ.val + 64
  | .fetch_sub => 3 * U + 62
  | .spin => 3 * U + 63
  | .setcontext => 3 * U + 64
  | .enable => 3 * U + 65

theorem init_processor_ranked (π : Fin U) :
    (init_processor π).Pairwise (rank · < rank ·) ∧
      ∀ s ∈ init_processor π, 0 < rank s ∧ rank s ≤ 60 := by
  have hranks : ∃ l, (init_processor π).map rank = l ∧ l.Pairwise (· < ·) ∧
      ∀ k ∈ l, 0 < k ∧ k ≤ 60 := by
    by_cases hπ : π.val = 0
    · refine ⟨[1, 2, 3, 10, 11, 12, 13, 14, 15, 16, 17, 20, 21, 22, 23, 24, 25, 26, 30, 31, 32, 33,
        34, 35, 40, 41, 42, 43, 44, 45, 50, 51, 52, 53, 54, 55, 60], ?_, by decide, by decide⟩
      simp [init_processor, define_interrupt_handlers, define_handler, hπ, rank, Intr.number,
        TimerType.intr]
    · refine ⟨[1, 2, 3, 20, 21, 22, 23, 24, 25, 26, 30, 31, 32, 33, 34, 35, 40, 41, 42, 43, 44, 45,
        50, 51, 52, 53, 54, 55, 60], ?_, by decide, by decide⟩
      simp [init_processor, define_interrupt_handlers, define_handler, hπ, rank, Intr.number,
        TimerType.intr]
  obtain ⟨l, hl, hsorted, hbounds⟩ := hranks
  rw [← hl] at hsorted hbounds
  exact ⟨List.pairwise_map.mp hsorted, fun s hs => hbounds _ (List.mem_map_of_mem hs)⟩

theorem activated_ranked :
    (((List.finRange U).filter (·.val ≠ 0)).flatMap activate_processor).Pairwise
      (rank · < rank ·) := by
  rw [List.pairwise_flatMap]
  constructor
  · intro ρ _
    simp [activate_processor, rank]
  · apply List.Pairwise.filter
    refine (List.pairwise_lt_finRange U).imp fun {ρ τ} hlt x hx y hy => ?_
    simp only [activate_processor, List.mem_cons, List.not_mem_nil, or_false] at hx hy
    have hval : ρ.val < τ.val := hlt
    obtain rfl | rfl | rfl := hx <;> obtain rfl | rfl | rfl := hy <;> simp only [rank] <;> omega

theorem activated_bounds {s : BootStmt U}
    (hs : s ∈ ((List.finRange U).filter (·.val ≠ 0)).flatMap activate_processor) :
    62 ≤ rank s ∧ rank s < 3 * U + 62 := by
  obtain ⟨ρ, -, hs⟩ := List.mem_flatMap.mp hs
  have hρ := ρ.isLt
  simp only [activate_processor, List.mem_cons, List.not_mem_nil, or_false] at hs
  obtain rfl | rfl | rfl := hs <;> simp only [rank] <;> omega

theorem synchronized_bounds {s : BootStmt U}
    (hs : s ∈ synchronize_processors ++ [.setcontext, .enable]) : 3 * U + 62 ≤ rank s := by
  simp only [synchronize_processors, List.mem_append, List.mem_cons, List.not_mem_nil,
    or_false] at hs
  obtain (rfl | rfl) | rfl | rfl := hs <;> simp only [rank] <;> omega

/-- The statements of a thread come in this order. -/
theorem program_ranked (π : Fin U) : (program π).Pairwise (rank · < rank ·) := by
  obtain ⟨hinit, hbounds⟩ := init_processor_ranked π
  unfold program
  split
  next hπ =>
    have hlast {s : BootStmt U} (hs : s ∈ synchronize_processors ++ [.enable]) :
        3 * U + 62 ≤ rank s := by
      apply synchronized_bounds
      simp only [List.mem_append, List.mem_cons, List.not_mem_nil, or_false] at hs ⊢
      exact hs.imp_right Or.inr
    rw [initializes, List.append_assoc, List.append_assoc, List.append_assoc,
      List.singleton_append, List.pairwise_append, List.pairwise_cons, List.pairwise_append]
    refine ⟨hinit, ⟨?_, activated_ranked, by simp [synchronize_processors, rank], ?_⟩, ?_⟩
    · intro s hs
      change 61 < rank s
      obtain hs | hs := List.mem_append.mp hs
      · have := activated_bounds hs
        omega
      · have := hlast hs
        omega
    · intro s hs r hr
      have := activated_bounds hs
      have := hlast hr
      omega
    · intro s hs r hr
      have := hbounds s hs
      obtain rfl | hr := List.mem_cons.mp hr
      · change rank s < 61
        omega
      · obtain hr | hr := List.mem_append.mp hr
        · have := activated_bounds hr
          omega
        · have := hlast hr
          omega
  next hπ =>
    rw [run_process, List.append_assoc, List.append_assoc, List.singleton_append,
      List.pairwise_cons, List.pairwise_append]
    refine ⟨?_, hinit, by simp [synchronize_processors, rank], ?_⟩
    · intro s hs
      change 0 < rank s
      obtain hs | hs := List.mem_append.mp hs
      · exact (hbounds s hs).1
      · have := synchronized_bounds hs
        omega
    · intro s hs r hr
      have := hbounds s hs
      have := synchronized_bounds hr
      omega

theorem program_nodup (π : Fin U) : (program π).Nodup :=
  Threads.nodup_of_rank (program_ranked π)

/-- Of two statements that a thread has, the one of lower rank is before the other. -/
theorem before {π : Fin U} {r s : BootStmt U} (hr : Belongs π r) (hs : Belongs π s)
    (hlt : rank r < rank s) : Threads.Before program π r s :=
  Threads.before_of_rank (program_ranked π) (mem_program.mpr hr) (mem_program.mpr hs) hlt

end BootStmt

/-- The signals for applications. -/
structure RtSignals where
  SIGRTMIN : Nat
  SIGRTMAX : Nat
  positive : 0 < SIGRTMIN

/-- The system knows a signal with this number. -/
def RtSignals.Valid (rt : RtSignals) (signo : Nat) : Bool := 0 < signo && signo ≤ rt.SIGRTMAX

/-- How many signals there are for applications. -/
def RtSignals.size (rt : RtSignals) : Nat := rt.SIGRTMAX + 1 - rt.SIGRTMIN

/-- A signal mask, by the numbers of the signals that it blocks. -/
abbrev SignoMask := Nat → Bool

/-- An entry of the table `interrupt`. -/
structure BootDesc where
  pun : Nat
  intr : Intr

/-- A signal on its way, to the thread or, for a timer, to any one; and the interrupt
that it is meant to be. -/
structure Sent (U : Nat) where
  target : Option (Fin U)
  signo : Nat
  pun : Fin U
  intr : Intr
  deriving DecidableEq

/-- A signal that a thread has taken, and the handler called for it. -/
structure Handled (U : Nat) where
  on : Fin U
  called : IntrHandler
  sent : Sent U

/-- The variables of `hardware.c`, and of the system.  `signo` is the local variable of
each call of `define_handler`; `idle` is the mask in the context of the idle process of
another processor, `saved` are those in the contexts saved for a processor later, also
while one of its threads is in a signal handler. -/
structure Hardware (U : Nat) where
  plotz : Option String
  killed : Bool
  created : Fin U → Bool
  cpu_key : Fin U → Option (Fin U)
  thread_id : Fin U → Option (Fin U)
  SIGBASE : Nat
  next_signo : Nat
  signo : Fin U → Intr → Option Nat
  interrupt : Nat → BootDesc
  signal_no : Fin U → Intr → Nat
  action : Nat → Bool
  sigmask : Fin U → SignoMask
  mask : Fin U → SignoMask
  idle : Fin U → SignoMask
  saved : Fin U → List SignoMask
  current : Fin U → Bool
  timer : Fin U → TimerType → Option Nat
  running : Fin U → TimerType → Bool
  barrier : Int
  pending : List (Sent U)
  handled : List (Handled U)

namespace Hardware

variable {U : Nat}

/-- A table with another entry at row `i`, column `j`. -/
def put {ι κ α : Type} [DecidableEq ι] [DecidableEq κ] (f : ι → κ → α) (i : ι) (j : κ) (x : α) :
    ι → κ → α :=
  fun a b => if a = i ∧ b = j then x else f a b

/-- The program has come to its end. -/
def ended (m : Hardware U) : Bool := m.plotz.isSome || m.killed

def plotzWith (m : Hardware U) (what : String) : Hardware U := { m with plotz := some what }

/-- What goes on with the processor number that `getcpu` returns. -/
def getcpu (m : Hardware U) (π : Fin U) (f : Fin U → Hardware U) : Hardware U :=
  match m.cpu_key π with
  | some pun => f pun
  | none => m.plotzWith "getcpu getspecifiic"

/-- The local variable of the call that has been made. -/
def local_signo (m : Hardware U) (π : Fin U) (i : Intr) : Nat := (m.signo π i).getD 0

/-- The place of a signal in the table `interrupt`. -/
def index (m : Hardware U) (signo : Nat) : Nat := signo - m.SIGBASE

def setMask (m : Hardware U) (π : Fin U) (mask : SignoMask) : Hardware U :=
  { m with mask := Function.update m.mask π mask }

def setInterrupt (m : Hardware U) (k : Nat) (desc : BootDesc) : Hardware U :=
  { m with interrupt := Function.update m.interrupt k desc }

/-- All signals are blocked. -/
def blocked : SignoMask := fun _ => true

/-- One statement of the initialisation on processor `π`; `none` where it waits. -/
def execute (rt : RtSignals) (π : Fin U) (s : BootStmt U) (m : Hardware U) :
    Option (Hardware U) :=
  if m.ended then none
  else match s with
  | .begin => if m.created π then some m else none
  | .setspecific => some { m with cpu_key := Function.update m.cpu_key π (some π) }
  | .thread_id => some { m with thread_id := Function.update m.thread_id π (some π) }
  | .sigaddset =>
      let all : SignoMask := fun k => decide (rt.SIGRTMIN ≤ k ∧ k ≤ rt.SIGRTMAX)
      some { m with sigmask := Function.update m.sigmask π all }
  | .fetch_add i =>
      some { m with
        signo := put m.signo π i (some m.next_signo)
        next_signo := m.next_signo + 1 }
  | .intr i =>
      let k := m.index (m.local_signo π i)
      some (m.getcpu π fun _ => m.setInterrupt k { m.interrupt k with intr := i })
  | .pun i =>
      let k := m.index (m.local_signo π i)
      some (m.getcpu π fun pun => m.setInterrupt k { m.interrupt k with pun := pun.val })
  | .signal_no i =>
      some (m.getcpu π fun pun =>
        { m with signal_no := put m.signal_no pun i (m.local_signo π i) })
  | .sigdelset i =>
      let k := m.local_signo π i
      some (m.getcpu π fun pun =>
        if rt.Valid k then { m with sigmask := put m.sigmask pun k false } else m)
  | .sigaction i =>
      let k := m.local_signo π i
      some (if rt.Valid k then { m with action := Function.update m.action k true } else m)
  | .init_timer t =>
      some (m.getcpu π fun pun =>
        let k := m.signal_no pun t.intr
        if rt.Valid k then { m with timer := put m.timer pun t (some k) }
        else m.plotzWith "init_timer timer_create")
  | .set_timer_repeating =>
      some (m.getcpu π fun pun =>
        match m.timer pun .elapsed with
        | some _ => { m with running := put m.running pun .elapsed true }
        | none => m.plotzWith "set_timer_repeating timer_settime")
  | .pthread_sigmask => some (m.setMask π fun k => m.mask π k || m.sigmask π k)
  | .set_current =>
      some (m.getcpu π fun pun =>
        if pun.val = 0 then { m with current := Function.update m.current pun true }
        else m.plotzWith "set_current non-matching cpu#")
  | .make_process ρ => some { m with idle := Function.update m.idle ρ (m.mask π) }
  | .current ρ => some { m with current := Function.update m.current ρ true }
  | .pthread_create ρ =>
      some ({ m with created := Function.update m.created ρ true }.setMask ρ (m.mask π))
  | .fetch_sub => some { m with barrier := m.barrier - 1 }
  | .spin => if m.barrier > 0 then none else some m
  | .setcontext => some (m.setMask π (m.idle π))
  | .enable => some (m.getcpu π fun pun => m.setMask π (m.sigmask pun))

/-- `pthread_kill`; `what` is what `plotz` says. -/
def pthread_kill (rt : RtSignals) (m : Hardware U) (e : Sent U) (what : String) : Hardware U :=
  if rt.Valid e.signo then { m with pending := e :: m.pending }
  else m.plotzWith what

def send_interprocessor_interrupt (rt : RtSignals) (m : Hardware U) (pun : Fin U) :
    Hardware U :=
  match m.thread_id pun with
  | some target =>
      m.pthread_kill rt ⟨some target, m.signal_no pun .interproc, pun, .interproc⟩
        "send_interprocessor_interrupt pthread_kill"
  | none => { m with killed := true }

def send_interrupt (rt : RtSignals) (m : Hardware U) (π : Fin U) (intr : Intr) : Hardware U :=
  if intr.number < Intr.user0.number then m.plotzWith "send_interrupt not user interrupt"
  else
    m.getcpu π fun pun =>
      m.pthread_kill rt ⟨some π, m.signal_no pun intr, pun, intr⟩ "send interrupt pthread_kill"

def set_timer_single (m : Hardware U) (π : Fin U) : Hardware U :=
  m.getcpu π fun pun =>
    match m.timer pun .timeout with
    | some _ => { m with running := put m.running pun .timeout true }
    | none => m.plotzWith "set_timer_single timer_settime"

/-- A timer expires.  Its signal is on its way only once. -/
def expire (m : Hardware U) (π : Fin U) (t : TimerType) : Option (Hardware U) :=
  match m.running π t, m.timer π t with
  | true, some k =>
      let e : Sent U := ⟨none, k, π, t.intr⟩
      some { m with
        running := put m.running π t (decide (t = .elapsed))
        pending := if e ∈ m.pending then m.pending else e :: m.pending }
  | _, _ => none

/-- The thread takes a signal.  Without a handler, or with no current process to save,
the program ends. -/
def handle_signal (m : Hardware U) (π : Fin U) (e : Sent U) : Hardware U :=
  let n := { m with pending := m.pending.erase e }
  if m.action e.signo then
    n.getcpu π fun pun =>
      if m.current pun then
        { n.setMask π blocked with
          saved := Function.update m.saved π (m.mask π :: m.saved π)
          handled := ⟨π, handle_interrupt (m.interrupt (m.index e.signo)).intr, e⟩ :: m.handled }
      else { n with killed := true }
  else { n with killed := true }

/-- `disable` and `hardware_init` have been executed on processor 0; the other
variables are static storage. -/
def hardware_init (rt : RtSignals) (U : Nat) : Hardware U where
  plotz := none
  killed := false
  created := fun π => decide (π.val = 0)
  cpu_key := fun _ => none
  thread_id := fun _ => none
  SIGBASE := rt.SIGRTMIN
  next_signo := rt.SIGRTMIN
  signo := fun _ _ => none
  interrupt := fun _ => ⟨0, .elapsed⟩
  signal_no := fun _ _ => 0
  action := fun _ => false
  sigmask := fun _ _ => false
  mask := fun _ => blocked
  idle := fun _ _ => false
  saved := fun _ => []
  current := fun _ => false
  timer := fun _ _ => none
  running := fun _ _ => false
  barrier := U
  pending := []
  handled := []

end Hardware

/-- The threads, each with what it still has to execute of its initialisation. -/
abbrev ProcessorBoot (U : Nat) := Threads (Fin U) (BootStmt U) (Hardware U)

/-- What happens next. -/
inductive BootAct (U : Nat)
  /-- the next statement of the initialisation of a processor -/
  | run (π : Fin U)
  -- what a process does on a processor that is initialised
  | disable (π : Fin U)
  | enable (π : Fin U)
  | getcontext (π : Fin U)
  /-- the context is restored that has been saved before `k` others -/
  | setcontext (π : Fin U) (k : Nat)
  /-- a process of processor `ρ` is built -/
  | build_context (π ρ : Fin U)
  | set_timer_single (π : Fin U)
  | send_interprocessor_interrupt (π ρ : Fin U)
  | send_interrupt (π : Fin U) (intr : Intr)
  -- what the system does
  | expire (π : Fin U) (t : TimerType)
  | deliver (π : Fin U) (e : Sent U)

namespace ProcessorBoot

variable {U : Nat}

/-- The processor is initialised, and a process runs on it. -/
def Up (m : ProcessorBoot U) (π : Fin U) : Prop := m.code π = []

instance (m : ProcessorBoot U) (π : Fin U) : Decidable (m.Up π) :=
  inferInstanceAs (Decidable (m.code π = []))

def withShared (m : ProcessorBoot U) (hw : Hardware U) : ProcessorBoot U := ⟨m.code, hw⟩

/-- A process of processor `π` does something to the hardware. -/
def process (m : ProcessorBoot U) (π : Fin U) (hw : Option (Hardware U)) :
    Option (ProcessorBoot U) :=
  if m.Up π && !m.shared.ended then hw.map m.withShared else none

/-- The thread may take the signal. -/
def Takes (m : ProcessorBoot U) (π : Fin U) (e : Sent U) : Prop :=
  e ∈ m.shared.pending ∧ (e.target = none ∨ e.target = some π) ∧
    m.shared.created π = true ∧ m.shared.mask π e.signo = false

instance (m : ProcessorBoot U) (π : Fin U) (e : Sent U) : Decidable (m.Takes π e) :=
  inferInstanceAs (Decidable (_ ∧ _ ∧ _ ∧ _))

/-- One step. -/
def step (rt : RtSignals) (m : ProcessorBoot U) : BootAct U → Option (ProcessorBoot U)
  | .run π => Threads.run (Hardware.execute rt) m π
  | .disable π => m.process π (some (m.shared.setMask π Hardware.blocked))
  | .enable π =>
      m.process π (some (m.shared.getcpu π fun pun => m.shared.setMask π (m.shared.sigmask pun)))
  | .getcontext π =>
      m.process π (some { m.shared with
        saved := Function.update m.shared.saved π (m.shared.mask π :: m.shared.saved π) })
  | .setcontext π k => m.process π ((m.shared.saved π)[k]?.map (m.shared.setMask π ·))
  | .build_context π ρ =>
      m.process π (some { m.shared with
        saved := Function.update m.shared.saved ρ (m.shared.mask π :: m.shared.saved ρ) })
  | .set_timer_single π => m.process π (some (m.shared.set_timer_single π))
  | .send_interprocessor_interrupt π ρ =>
      m.process π (some (m.shared.send_interprocessor_interrupt rt ρ))
  | .send_interrupt π intr => m.process π (some (m.shared.send_interrupt rt π intr))
  | .expire π t => if m.shared.ended then none else (m.shared.expire π t).map m.withShared
  | .deliver π e =>
      if m.Takes π e ∧ m.shared.ended = false then some (m.withShared (m.shared.handle_signal π e))
      else none

def init (rt : RtSignals) (U : Nat) : ProcessorBoot U :=
  Threads.start BootStmt.program (Hardware.hardware_init rt U)

end ProcessorBoot

namespace Hardware

variable {U : Nat} {rt : RtSignals} {m t : Hardware U} {π ρ : Fin U} {i : Intr} {k : Nat}

/-- What the execution of a statement does on a thread that knows its processor. -/
inductive Executes (rt : RtSignals) (π : Fin U) (m : Hardware U) :
    BootStmt U → Hardware U → Prop
  | begin (h : m.created π = true) : Executes rt π m .begin m
  | setspecific :
      Executes rt π m .setspecific { m with cpu_key := Function.update m.cpu_key π (some π) }
  | thread_id :
      Executes rt π m .thread_id { m with thread_id := Function.update m.thread_id π (some π) }
  | sigaddset :
      Executes rt π m .sigaddset
        { m with
          sigmask := Function.update m.sigmask π
            (fun k => decide (rt.SIGRTMIN ≤ k ∧ k ≤ rt.SIGRTMAX)) }
  | fetch_add (i : Intr) :
      Executes rt π m (.fetch_add i)
        { m with
          signo := put m.signo π i (some m.next_signo)
          next_signo := m.next_signo + 1 }
  | intr (i : Intr) :
      Executes rt π m (.intr i)
        (m.setInterrupt (m.index (m.local_signo π i))
          { m.interrupt (m.index (m.local_signo π i)) with intr := i })
  | pun (i : Intr) :
      Executes rt π m (.pun i)
        (m.setInterrupt (m.index (m.local_signo π i))
          { m.interrupt (m.index (m.local_signo π i)) with pun := π.val })
  | signal_no (i : Intr) :
      Executes rt π m (.signal_no i)
        { m with signal_no := put m.signal_no π i (m.local_signo π i) }
  | sigdelset (i : Intr) (h : rt.Valid (m.local_signo π i) = true) :
      Executes rt π m (.sigdelset i)
        { m with sigmask := put m.sigmask π (m.local_signo π i) false }
  | sigdelset_fails (i : Intr) (h : rt.Valid (m.local_signo π i) = false) :
      Executes rt π m (.sigdelset i) m
  | sigaction (i : Intr) (h : rt.Valid (m.local_signo π i) = true) :
      Executes rt π m (.sigaction i)
        { m with action := Function.update m.action (m.local_signo π i) true }
  | sigaction_fails (i : Intr) (h : rt.Valid (m.local_signo π i) = false) :
      Executes rt π m (.sigaction i) m
  | init_timer (t : TimerType) (h : rt.Valid (m.signal_no π t.intr) = true) :
      Executes rt π m (.init_timer t)
        { m with timer := put m.timer π t (some (m.signal_no π t.intr)) }
  | init_timer_fails (t : TimerType) (h : rt.Valid (m.signal_no π t.intr) = false) :
      Executes rt π m (.init_timer t) (m.plotzWith "init_timer timer_create")
  | set_timer_repeating :
      Executes rt π m .set_timer_repeating { m with running := put m.running π .elapsed true }
  | pthread_sigmask :
      Executes rt π m .pthread_sigmask (m.setMask π fun k => m.mask π k || m.sigmask π k)
  | set_current :
      Executes rt π m .set_current { m with current := Function.update m.current π true }
  | make_process (ρ : Fin U) :
      Executes rt π m (.make_process ρ) { m with idle := Function.update m.idle ρ (m.mask π) }
  | current (ρ : Fin U) :
      Executes rt π m (.current ρ) { m with current := Function.update m.current ρ true }
  | pthread_create (ρ : Fin U) :
      Executes rt π m (.pthread_create ρ)
        ({ m with created := Function.update m.created ρ true }.setMask ρ (m.mask π))
  | fetch_sub : Executes rt π m .fetch_sub { m with barrier := m.barrier - 1 }
  | spin (h : m.barrier ≤ 0) : Executes rt π m .spin m
  | setcontext : Executes rt π m .setcontext (m.setMask π (m.idle π))
  | enable : Executes rt π m .enable (m.setMask π (m.sigmask π))

theorem execute_cases {s : BootStmt U}
    (hcpu : s ≠ .begin → s ≠ .setspecific → m.cpu_key π = some π)
    (hfirst : s = .set_current → π.val = 0)
    (htimer : s = .set_timer_repeating → (m.timer π .elapsed).isSome = true)
    (h : execute rt π s m = some t) : m.ended = false ∧ Executes rt π m s t := by
  unfold execute at h
  split at h
  next => cases h
  next hended =>
    refine ⟨by simpa using hended, ?_⟩
    cases s with
    | begin =>
        obtain ⟨hcreated, heq⟩ := Option.ite_none_right_eq_some.mp h
        cases heq
        exact .begin hcreated
    | spin =>
        obtain ⟨hbarrier, heq⟩ := Option.ite_none_left_eq_some.mp h
        cases heq
        exact .spin (not_lt.mp hbarrier)
    | setspecific | thread_id | sigaddset | fetch_add | pthread_sigmask | make_process | current
    | pthread_create | fetch_sub | setcontext =>
        cases h
        constructor
    | sigaction i =>
        simp only [Option.some.injEq] at h
        subst h
        split
        next hvalid => exact .sigaction i hvalid
        next hvalid => exact .sigaction_fails i (by simpa using hvalid)
    | intr | pun | signal_no | enable =>
        simp only [getcpu, hcpu (by simp) (by simp), Option.some.injEq] at h
        subst h
        constructor
    | sigdelset i =>
        simp only [getcpu, hcpu (by simp) (by simp), Option.some.injEq] at h
        subst h
        split
        next hvalid => exact .sigdelset i hvalid
        next hvalid => exact .sigdelset_fails i (by simpa using hvalid)
    | init_timer t =>
        simp only [getcpu, hcpu (by simp) (by simp), Option.some.injEq] at h
        subst h
        split
        next hvalid => exact .init_timer t hvalid
        next hvalid => exact .init_timer_fails t (by simpa using hvalid)
    | set_timer_repeating =>
        obtain ⟨id, hid⟩ := Option.isSome_iff_exists.mp (htimer rfl)
        simp only [getcpu, hcpu (by simp) (by simp), hid, Option.some.injEq] at h
        subst h
        exact .set_timer_repeating
    | set_current =>
        simp only [getcpu, hcpu (by simp) (by simp), hfirst rfl, if_true, Option.some.injEq] at h
        subst h
        exact .set_current

end Hardware

end Cxp
