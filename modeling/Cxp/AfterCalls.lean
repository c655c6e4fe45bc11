import Cxp.SchedulerTally
import Cxp.TimerAgenda
import Mathlib.Data.Fin.VecNotation

/-!
# `After` under the scheduler (`timer.c`, `sched.c`)

Any number of processes call `After`, again and again, beside everything else that
processes do under the scheduler.  A call reads the clock, prepares to wait, links
a descriptor of its own frame into the timer queue of its processor, and goes
through `relinquish`; the timer may interrupt wherever interrupts are enabled.

* A clock reading by a handler is remembered for the calls that are under way on
  its processor (`readings`), and so is that of the handler which has released a
  call (`released`).
* Nobody else knows a process in `After`: it is not woken through a channel or by
  a user interrupt, and no alternation has a timer (`admits`).
* The time that the timer is set to is left out: it may interrupt at any time.
-/

namespace Cxp

open LinkedChain Run Timers

/-- Where a process stands in `After`. -/
inductive AfterPc
  /-- it has read the clock -/
  | read
  /-- it has filled in the descriptor, and prepared to wait -/
  | prepared
  /-- the descriptor is inserted, and it is in `relinquish` -/
  | inserted
  deriving DecidableEq

/-- A call of `After(when)`: the clock reading of its own, all those made since it
began, and that of the handler that has released it. -/
structure AfterCall where
  when : Int
  pc : AfterPc
  read : Int
  readings : List Int
  released : Option Int

/-- The scheduler, the timer queues and the clock; the time that the handler of a
processor has read last; and the calls under way. -/
structure Afters (N U : Nat) where
  sched : Sched N U
  tm : Timers N U
  clock : Int
  now : Fin U → Option Int
  call : Fin N → Option AfterCall

/-- One step. -/
inductive AfterAct (N U : Nat)
  /-- a process that is in no call, or in `relinquish`, or a handler goes on -/
  | sched (act : SchedAct N U)
  /-- the process calls `After`, and reads the clock -/
  | After (p : Fin N) (when : Int)
  /-- it takes the next step of the call, up to `relinquish` -/
  | goes (p : Fin N)
  /-- the timer interrupts the processor -/
  | interrupt (π : Fin U)
  /-- the handler reads the clock -/
  | reads (π : Fin U)
  /-- it handles the head entry of the queue, which is due -/
  | expire (π : Fin U)
  /-- time passes -/
  | tick (δ : Nat)

namespace Afters

variable {N U : Nat}

/-- The head entry of the queue, with the time that the handler has read, if the
entry is due. -/
def due (m : Afters N U) (π : Fin U) : Option (Int × DescRef N) :=
  (m.now π).bind fun n =>
    (m.tm.head π).bind fun head => if m.tm.time head ≤ n then some (n, head) else none

/-- What goes on beside the calls.  The handler leaves its loop when it has read
the clock and nothing is due. -/
def admits (m : Afters N U) : SchedAct N U → Bool
  | .prepare p | .select p | .found p | .par p _ _ | .build p _ | .free p _ | .yield p
  | .sync p => (m.call p).isNone
  | .wake p q => (m.call p).isNone && (m.call q).isNone
  | .run p => (m.call p).all fun c => c.pc = .inserted
  | .interrupt _ .timeout => false
  | .interrupt _ _ => true
  | .freeProcess π q => !decide (m.sched.Inside π .timeout) && (m.call q).isNone
  | .freeAlting _ _ => false
  | .handle π => !decide (m.sched.Inside π .timeout) || (m.now π).isSome && (m.due π).isNone

/-- The call ends when `relinquish` has returned. -/
def follow (m : Afters N U) (act : SchedAct N U) (s : Sched N U) : Afters N U :=
  match act with
  | .run p =>
      { m with
        sched := s
        call := if (s.live p).code = .own then Function.update m.call p none else m.call }
  | _ => { m with sched := s }

/-- The next step of `After`. -/
def goes (sys : Procs N U) (m : Afters N U) (p : Fin N) (c : AfterCall) :
    Option (Afters N U) :=
  match c.pc with
  | .read =>
      if c.when > c.read then
        (m.sched.step sys (.prepare p)).map fun s =>
          { m with
            sched := s
            tm := m.tm.fill (.stack p) c.when p .after
            call := Function.update m.call p (some { c with pc := .prepared }) }
      else some { m with call := Function.update m.call p none }
  | .prepared =>
      (m.tm.insertInQueue (sys.pun p) (.stack p)).map fun r =>
        { m with
          tm := r.1
          call := Function.update m.call p (some { c with pc := .inserted }) }
  | .inserted => none

/-- The handler reads the clock, while the calls of its processor are under way. -/
def reads (sys : Procs N U) (m : Afters N U) (π : Fin U) : Afters N U :=
  { m with
    now := Function.update m.now π (some m.clock)
    call := fun p => if sys.pun p = π then
        (m.call p).map fun c => { c with readings := c.readings ++ [m.clock] }
      else m.call p }

/-- One round of the loop of `handle_timeout_interrupt`. -/
def expire (sys : Procs N U) (m : Afters N U) (π : Fin U) (n : Int) (head : DescRef N) :
    Option (Afters N U) :=
  let proc := m.tm.proc head
  let m := { m with tm := m.tm.removeHead π head }
  match m.tm.type head with
  | .after =>
      (m.sched.freeProcess sys proc).map fun s =>
        { m with
          sched := s
          call := Function.update m.call proc
            ((m.call proc).map fun c => { c with released := some n }) }
  | .alting => some { m with sched := m.sched.freeAlting (m.sched.current π) proc }

/-- One step of the system. -/
def step (sys : Procs N U) (m : Afters N U) : AfterAct N U → Option (Afters N U)
  | .sched act => if m.admits act then (m.sched.step sys act).map (m.follow act) else none
  | .After p when =>
      if m.sched.May sys p (· = .own) ∧ m.call p = none then
        some { m with
          call := Function.update m.call p (some ⟨when, .read, m.clock, [m.clock], none⟩) }
      else none
  | .goes p => if m.sched.Runs sys p then (m.call p).bind (m.goes sys p) else none
  | .interrupt π =>
      (m.sched.step sys (.interrupt π .timeout)).map fun s =>
        { m with
          sched := s
          now := Function.update m.now π none }
  | .reads π => if m.sched.Inside π .timeout ∧ m.now π = none then some (m.reads sys π) else none
  | .expire π =>
      if m.sched.Inside π .timeout then (m.due π).bind fun d => m.expire sys π d.1 d.2
      else none
  | .tick δ => some { m with clock := m.clock + δ }

/-- After `initialize`; the clock has come to `clock`, and the descriptors hold
whatever is in the memory. -/
def init (sys : Procs N U) (tm : Timers N U) (clock : Int) : Afters N U where
  sched := Sched.init sys
  tm := { tm with head := fun _ => none }
  clock := clock
  now := fun _ => none
  call := fun _ => none

/-- What a caller of `After` relies on.  When its call ends, the clock was read at
or after `when` during the call, by the call itself or by the handler that released
it; and outside of calls no timer queue holds the descriptor of the process. -/
def InTime (sys : Procs N U) (m : Afters N U) (act : AfterAct N U) : Prop :=
  ∀ n, m.step sys act = some n → ∀ p, n.call p = none →
    (∀ c, m.call p = some c →
      ∃ r ∈ c.readings, c.when ≤ r ∧ (r = c.read ∨ c.released = some r)) ∧
    ∀ π, Chain n.tm.next (n.tm.head π) (n.tm.linked π) ∧ .stack p ∉ n.tm.linked π

section Invariant

/-- The descriptor of the process is filled in for a call of `After(when)`. -/
def Filled (tm : Timers N U) (p : Fin N) (when : Int) : Prop :=
  tm.time (.stack p) = when ∧ tm.proc (.stack p) = p ∧ tm.type (.stack p) = .after

/-- Where a process stands in its call.  While the descriptor is linked nobody has
made the process ready; who has unlinked it made it so, not too early. -/
def Place (sys : Procs N U) (m : Afters N U) (p : Fin N) (c : AfterCall) : Prop :=
  match c.pc with
  | .read => (m.sched.live p).code = .own
  | .prepared =>
      (m.sched.live p).code = .prepared ∧ m.sched.sched_state p = .preparingToWait ∧
        Filled m.tm p c.when
  | .inserted =>
      (m.sched.live p).code.waits = true ∧ Filled m.tm p c.when ∧
        (.stack p ∈ m.tm.linked (sys.pun p) ∧ m.sched.sched_state p ≠ .ready ∨
          m.sched.sched_state p = .ready ∧ ∃ r ∈ c.readings, c.when ≤ r ∧ c.released = some r)

/-- What holds of a call that is under way. -/
structure InCall (sys : Procs N U) (m : Afters N U) (p : Fin N) (c : AfterCall) : Prop where
  op : (m.sched.live p).op = .none
  read : c.read ∈ c.readings
  later : c.pc ≠ .read → c.read < c.when
  now : ∀ n, m.now (sys.pun p) = some n → n ∈ c.readings ∨ n ≤ c.read
  place : m.Place sys p c

/-- Whose descriptor is linked is in a call, and has not been made ready. -/
def Waiting (sys : Procs N U) (m : Afters N U) (π : Fin U) (p : Fin N) : Prop :=
  sys.pun p = π ∧ m.sched.sched_state p ≠ .ready ∧ ∃ c, m.call p = some c ∧ c.pc = .inserted

/-- The invariant. -/
structure Orderly (sys : Procs N U) (m : Afters N U) : Prop where
  tally : m.sched.Tally sys
  chain : ∀ π, Chain m.tm.next (m.tm.head π) (m.tm.linked π)
  frames : ∀ π, ∀ desc ∈ m.tm.linked π, ∃ p, desc = .stack p
  linked : ∀ π p, .stack p ∈ m.tm.linked π → m.Waiting sys π p
  now : ∀ π n, m.now π = some n → n ≤ m.clock
  calls : ∀ p c, m.call p = some c → m.InCall sys p c

/-- What a step leaves alone of a process. -/
structure Keeps (sys : Procs N U) (m n : Afters N U) (x : Fin N) : Prop where
  stands : ∀ c, m.call x = some c →
    Sched.Stands m.sched n.sched x ∧ n.sched.sched_state x = m.sched.sched_state x
  call : n.call x = m.call x
  linked : ∀ π, .stack x ∈ n.tm.linked π ↔ .stack x ∈ m.tm.linked π
  filled : ∀ when, Filled m.tm x when → Filled n.tm x when
  now : ∀ k, n.now (sys.pun x) = some k → m.now (sys.pun x) = some k

variable {sys : Procs N U} {m n : Afters N U} {π : Fin U} {p x : Fin N} {c : AfterCall}
  {act : SchedAct N U} {t : Sched N U}

theorem InCall.keeps (h : m.InCall sys x c) (hk : Keeps sys m n x) (hcall : m.call x = some c) :
    n.InCall sys x c := by
  obtain ⟨⟨hcode, hop⟩, hstate⟩ := hk.stands c hcall
  refine ⟨hop.trans h.op, h.read, h.later, fun k hn => h.now k (hk.now k hn), ?_⟩
  have hplace := h.place
  unfold Place at hplace ⊢
  rw [hcode, hstate, hk.linked]
  cases hpc : c.pc with
  | read =>
      rw [hpc] at hplace
      exact hplace
  | prepared =>
      rw [hpc] at hplace
      exact ⟨hplace.1, hplace.2.1, hk.filled _ hplace.2.2⟩
  | inserted =>
      rw [hpc] at hplace
      exact ⟨hplace.1, hk.filled _ hplace.2.1, hplace.2.2⟩

theorem Waiting.keeps (h : m.Waiting sys π x) (hk : Keeps sys m n x) : n.Waiting sys π x := by
  obtain ⟨hpun, hstate, c, hcall, hpc⟩ := h
  refine ⟨hpun, ?_, c, hk.call.trans hcall, hpc⟩
  rw [(hk.stands c hcall).2]
  exact hstate

/-- The invariant after a step: some processes are left alone, of the others it is
shown anew. -/
theorem Orderly.next (h : Orderly sys m) (htally : n.sched.Tally sys)
    (hchain : ∀ π, Chain n.tm.next (n.tm.head π) (n.tm.linked π))
    (hframes : ∀ π, ∀ desc ∈ n.tm.linked π, ∃ p, desc = .stack p)
    (hnow : ∀ π k, n.now π = some k → k ≤ n.clock)
    (heach : ∀ x, Keeps sys m n x ∨ (∀ π, .stack x ∈ n.tm.linked π → n.Waiting sys π x) ∧
      ∀ c, n.call x = some c → n.InCall sys x c) : Orderly sys n where
  tally := htally
  chain := hchain
  frames := hframes
  linked π x hx := by
    obtain hk | hnew := heach x
    · exact (h.linked π x ((hk.linked π).mp hx)).keeps hk
    · exact hnew.1 π hx
  now := hnow
  calls x c hc := by
    obtain hk | hnew := heach x
    · have hcall : m.call x = some c := hk.call.symm.trans hc
      exact (h.calls x c hcall).keeps hk hcall
    · exact hnew.2 c hc

/-- A descriptor is in the queue of one processor. -/
theorem Orderly.apart (h : Orderly sys m) {ρ : Fin U} {desc : DescRef N} (hne : ρ ≠ π)
    (hdesc : desc ∈ m.tm.linked ρ) : desc ∉ m.tm.linked π := by
  intro hother
  obtain ⟨x, rfl⟩ := h.frames ρ desc hdesc
  have hρ := (h.linked ρ x hdesc).1
  have hπ := (h.linked π x hother).1
  exact hne (hρ.symm.trans hπ)

/-- The queue of a processor changes, and no other one. -/
theorem Orderly.requeued (h : Orderly sys m) {tm : Timers N U} {q : List (DescRef N)}
    (hreq : Requeued m.tm tm π (m.tm.linked π) q)
    (hq : ∀ desc ∈ q, desc ∈ m.tm.linked π ∨ ∃ p, desc = .stack p ∧ sys.pun p = π ∧
      ∀ ρ, desc ∉ m.tm.linked ρ) :
    (∀ ρ, Chain tm.next (tm.head ρ) (tm.linked ρ)) ∧
      tm.linked = Function.update m.tm.linked π q ∧
      ∀ ρ, ∀ desc ∈ tm.linked ρ, ∃ p, desc = .stack p := by
  have hexists : ∀ desc, (∃ p : Fin N, desc = .stack p) → tm.Exists desc := by
    intro desc hdesc
    obtain ⟨p, rfl⟩ := hdesc
    trivial
  have hframes : ∀ desc ∈ q, ∃ p, desc = .stack p := by
    intro desc hdesc
    obtain hold | ⟨p, heq, -⟩ := hq desc hdesc
    · exact h.frames π desc hold
    · exact ⟨p, heq⟩
  have hπ : tm.linked π = q := by
    apply linked_eq hreq.chain
    intro desc hdesc
    exact hexists desc (hframes desc hdesc)
  have hother : ∀ ρ, ρ ≠ π →
      Chain tm.next (tm.head ρ) (m.tm.linked ρ) ∧ tm.linked ρ = m.tm.linked ρ := by
    intro ρ hρ
    have hchain : Chain tm.next (tm.head ρ) (m.tm.linked ρ) := by
      apply hreq.chain_other hρ (h.chain ρ)
      · intro desc hdesc
        exact h.apart hρ hdesc
      · intro desc hdesc hmem
        obtain hold | ⟨p, -, -, hnew⟩ := hq desc hmem
        · exact h.apart hρ hdesc hold
        · exact hnew ρ hdesc
    refine ⟨hchain, linked_eq hchain ?_⟩
    intro desc hdesc
    exact hexists desc (h.frames ρ desc hdesc)
  have hlinked : tm.linked = Function.update m.tm.linked π q := by
    funext ρ
    by_cases hρ : ρ = π
    · rw [hρ, Function.update_self, hπ]
    · rw [Function.update_of_ne hρ, (hother ρ hρ).2]
  refine ⟨?_, hlinked, ?_⟩
  · intro ρ
    by_cases hρ : ρ = π
    · rw [hρ, hπ]
      exact hreq.chain
    · rw [(hother ρ hρ).2]
      exact (hother ρ hρ).1
  · intro ρ desc hdesc
    rw [hlinked] at hdesc
    by_cases hρ : ρ = π
    · rw [hρ, Function.update_self] at hdesc
      exact hframes desc hdesc
    · rw [Function.update_of_ne hρ] at hdesc
      exact h.frames ρ desc hdesc

end Invariant

section Steps

variable {sys : Procs N U} {m n : Afters N U} {π : Fin U} {p x : Fin N} {c : AfterCall}
  {act : SchedAct N U} {t : Sched N U}

/-- Who is in a call has been built. -/
theorem InCall.born (h : m.InCall sys p c) : (m.sched.live p).code ≠ .unborn := by
  have hplace := h.place
  unfold Place at hplace
  intro hcode
  rw [hcode] at hplace
  cases hpc : c.pc with
  | read =>
      rw [hpc] at hplace
      cases hplace
  | prepared =>
      rw [hpc] at hplace
      cases hplace.1
  | inserted =>
      rw [hpc] at hplace
      cases hplace.1

/-- **Nobody else touches a process in a call**: it does nothing but what the call
does, nobody wakes it, and it is not built anew. -/
theorem admits_spares (hadm : m.admits act = true) (hcall : m.call x = some c)
    (hborn : (m.sched.live x).code ≠ .unborn) (hrun : act ≠ .run x)
    (hstep : m.sched.step sys act = some t) : act.spares x = true := by
  have hnone : ∀ p, (m.call p).isNone = true → p ≠ x := by
    intro p hp heq
    rw [heq, hcall] at hp
    cases hp
  cases act with
  | prepare p | select p | found p | par p kind nc | free p q | yield p | sync p =>
      have hp := hnone p hadm
      simpa [SchedAct.spares, SchedAct.actor, SchedAct.marks] using hp
  | wake p q =>
      have hp := hnone p (Bool.and_eq_true_iff.mp hadm).1
      have hq := hnone q (Bool.and_eq_true_iff.mp hadm).2
      simpa [SchedAct.spares, SchedAct.actor, SchedAct.marks] using And.intro hp hq
  | build p q =>
      have hp := hnone p hadm
      have hq : q ≠ x := by
        intro heq
        rw [heq] at hstep
        cases Sched.step_cases hstep with
        | build hcode hmay hunborn hpri hpun henqueue => exact hborn hunborn
      simpa [SchedAct.spares, SchedAct.actor, SchedAct.marks] using And.intro hp hq
  | freeProcess π q =>
      have hq := hnone q (Bool.and_eq_true_iff.mp hadm).2
      simpa [SchedAct.spares, SchedAct.actor, SchedAct.marks] using hq
  | run p =>
      have hp : p ≠ x := by
        intro heq
        exact hrun (heq ▸ rfl)
      simpa [SchedAct.spares, SchedAct.actor, SchedAct.marks] using hp
  | interrupt _ _ | freeAlting _ _ | handle _ => rfl

/-- What a step of the scheduler leaves alone. -/
theorem keeps_of_step (h : m.Orderly sys) (act : SchedAct N U)
    (hstep : m.sched.step sys act = some n.sched)
    (hspares : ∀ c, m.call x = some c → act.spares x = true)
    (hcall : n.call x = m.call x) (htm : n.tm = m.tm)
    (hnow : ∀ k, n.now (sys.pun x) = some k → m.now (sys.pun x) = some k) :
    Keeps sys m n x := by
  refine ⟨?_, hcall, ?_, ?_, hnow⟩
  · intro c hc
    exact h.tally.settled.spared hstep (hspares c hc)
  · rw [htm]
    exact fun _ => Iff.rfl
  · rw [htm]
    exact fun _ hf => hf

theorem follow_sched (act : SchedAct N U) (t : Sched N U) : (m.follow act t).sched = t := by
  cases act <;> rfl

theorem follow_rest (act : SchedAct N U) (t : Sched N U) :
    (m.follow act t).tm = m.tm ∧ (m.follow act t).clock = m.clock ∧
      (m.follow act t).now = m.now := by
  cases act <;> exact ⟨rfl, rfl, rfl⟩

theorem follow_call (hact : act ≠ .run x) : (m.follow act t).call x = m.call x := by
  cases act with
  | run p =>
      have hx : x ≠ p := by
        intro heq
        exact hact (heq ▸ rfl)
      simp only [follow]
      split
      · exact Function.update_of_ne hx _ _
      · rfl
  | _ => rfl

/-- Whoever is in `relinquish` for a call goes on with it, or the call ends; then
its process has been made ready. -/
theorem Orderly.follows_run (h : m.Orderly sys) (hcall : m.call x = some c)
    (hpc : c.pc = .inserted) (hstep : m.sched.step sys (.run x) = some t) :
    ((m.follow (.run x) t).call x = some c ∧ (m.follow (.run x) t).InCall sys x c ∧
        (t.sched_state x = .ready ↔ m.sched.sched_state x = .ready)) ∨
      (m.follow (.run x) t).call x = none ∧ m.sched.sched_state x = .ready := by
  have hin := h.calls x c hcall
  have hplace := hin.place
  unfold Place at hplace
  rw [hpc] at hplace
  obtain ⟨hop, ⟨hwaits, hready⟩ | ⟨hown, hready⟩⟩ := h.tally.run_waits hin.op hplace.1 hstep
  · have hne : (t.live x).code ≠ .own := by
      intro heq
      rw [heq] at hwaits
      cases hwaits
    left
    simp only [follow, if_neg hne]
    refine ⟨hcall, ⟨hop, hin.read, hin.later, hin.now, ?_⟩, hready⟩
    unfold Place
    rw [hpc]
    refine ⟨hwaits, hplace.2.1, ?_⟩
    simp only [ne_eq, hready]
    exact hplace.2.2
  · right
    simp only [follow, if_pos hown, Function.update_self]
    exact ⟨trivial, hready⟩

/-- What the scheduler does keeps the invariant. -/
theorem Orderly.follows (h : m.Orderly sys) (hadm : m.admits act = true)
    (hstep : m.sched.step sys act = some t) : (m.follow act t).Orderly sys := by
  obtain ⟨htm, hclock, hnow⟩ := follow_rest (m := m) act t
  refine h.next ?_ ?_ ?_ ?_ ?_
  · rw [follow_sched]
    exact h.tally.step hstep
  · rw [htm]
    exact h.chain
  · rw [htm]
    exact h.frames
  · rw [hclock, hnow]
    exact h.now
  · intro x
    by_cases hrun : act = .run x ∧ ∃ c, m.call x = some c
    · obtain ⟨rfl, c, hcall⟩ := hrun
      right
      have hpc : c.pc = .inserted := by
        change (m.call x).all _ = true at hadm
        rw [hcall] at hadm
        exact of_decide_eq_true hadm
      rw [htm]
      obtain ⟨hcall', hin, hready⟩ | ⟨hcall', hready⟩ := h.follows_run hcall hpc hstep
      · constructor
        · intro π hx
          obtain ⟨hpun, hstate, hc⟩ := h.linked π x hx
          exact ⟨hpun, fun heq => hstate (hready.mp heq), c, hcall', hpc⟩
        · intro c' hc'
          obtain rfl := Option.some.inj (hcall'.symm.trans hc')
          exact hin
      · constructor
        · intro π hx
          exact absurd hready (h.linked π x hx).2.1
        · intro c' hc'
          rw [hcall'] at hc'
          cases hc'
    · left
      apply keeps_of_step h act
      · rw [follow_sched]
        exact hstep
      · intro c hcall
        have hne : act ≠ .run x := by
          intro heq
          exact hrun ⟨heq, c, hcall⟩
        exact admits_spares hadm hcall (h.calls x c hcall).born hne hstep
      · by_cases heq : act = .run x
        · have hnone : m.call x = none := by
            cases hc : m.call x with
            | none => rfl
            | some c => exact absurd ⟨heq, c, hc⟩ hrun
          rw [heq, hnone]
          simp only [follow]
          split
          · exact Function.update_self _ _ _
          · exact hnone
        · exact follow_call heq
      · exact htm
      · rw [hnow]
        exact fun _ hk => hk

theorem Orderly.After (h : m.Orderly sys) {when : Int} (hmay : m.sched.May sys p (· = .own))
    (hcall : m.call p = none) :
    Orderly sys { m with
      call := Function.update m.call p (some ⟨when, .read, m.clock, [m.clock], none⟩) } := by
  refine h.next h.tally h.chain h.frames h.now ?_
  intro x
  by_cases hx : x = p
  · right
    rw [hx]
    constructor
    · intro π hlinked
      obtain ⟨-, -, c, hc, -⟩ := h.linked π p hlinked
      rw [hcall] at hc
      cases hc
    · intro c hc
      dsimp only at hc
      rw [Function.update_self] at hc
      obtain rfl := Option.some.inj hc
      have hown : (m.sched.live p).code = .own := of_decide_eq_true hmay.2.2.1
      exact ⟨hmay.2.1, List.mem_singleton_self _, fun hne => absurd rfl hne,
        fun k hk => Or.inr (h.now _ k hk), hown⟩
  · left
    exact ⟨fun _ _ => ⟨Sched.Stands.refl _ x, rfl⟩, Function.update_of_ne hx _ _,
      fun _ => Iff.rfl, fun _ hf => hf, fun _ hk => hk⟩

/-- A call whose time has come ends at once. -/
theorem Orderly.returns (h : m.Orderly sys) (hcall : m.call p = some c) (hpc : c.pc = .read) :
    Orderly sys { m with call := Function.update m.call p none } := by
  refine h.next h.tally h.chain h.frames h.now ?_
  intro x
  by_cases hx : x = p
  · right
    rw [hx]
    constructor
    · intro π hlinked
      obtain ⟨-, -, c', hc', hpc'⟩ := h.linked π p hlinked
      obtain rfl := Option.some.inj (hcall.symm.trans hc')
      rw [hpc] at hpc'
      cases hpc'
    · intro c' hc'
      dsimp only at hc'
      rw [Function.update_self] at hc'
      cases hc'
  · left
    exact ⟨fun _ _ => ⟨Sched.Stands.refl _ x, rfl⟩, Function.update_of_ne hx _ _,
      fun _ => Iff.rfl, fun _ hf => hf, fun _ hk => hk⟩

theorem filled_fill (tm : Timers N U) (p : Fin N) (when : Int) :
    Filled (tm.fill (.stack p) when p .after) p when :=
  ⟨Function.update_self _ _ _, Function.update_self _ _ _, Function.update_self _ _ _⟩

theorem filled_fill_of_ne {tm : Timers N U} {when when' : Int} (hx : x ≠ p)
    (h : Filled tm x when') : Filled (tm.fill (.stack p) when p .after) x when' := by
  have hne : DescRef.stack x ≠ .stack p := by
    intro heq
    exact hx (DescRef.stack.inj heq)
  exact ⟨(Function.update_of_ne hne _ _).trans h.1, (Function.update_of_ne hne _ _).trans h.2.1,
    (Function.update_of_ne hne _ _).trans h.2.2⟩

/-- The descriptor is filled in, and the process prepares to wait. -/
theorem Orderly.prepares (h : m.Orderly sys) (hcall : m.call p = some c) (hpc : c.pc = .read)
    (hlate : c.read < c.when) (hstep : m.sched.step sys (.prepare p) = some t) :
    Orderly sys { m with
      sched := t
      tm := m.tm.fill (.stack p) c.when p .after
      call := Function.update m.call p (some { c with pc := .prepared }) } := by
  have hin := h.calls p c hcall
  refine h.next (h.tally.step hstep) h.chain h.frames h.now ?_
  intro x
  by_cases hx : x = p
  · right
    rw [hx]
    constructor
    · intro π hlinked
      obtain ⟨-, -, c', hc', hpc'⟩ := h.linked π p hlinked
      obtain rfl := Option.some.inj (hcall.symm.trans hc')
      rw [hpc] at hpc'
      cases hpc'
    · intro c' hc'
      dsimp only at hc'
      rw [Function.update_self] at hc'
      obtain rfl := Option.some.inj hc'
      cases Sched.step_cases hstep with
      | prepare hmay =>
          refine ⟨?_, hin.read, fun _ => hlate, hin.now, ?_, ?_, filled_fill m.tm p c.when⟩
          · simp [Sched.goto, hin.op]
          · simp [Sched.goto]
          · simp [Sched.goto]
  · left
    have hspares : (SchedAct.prepare p : SchedAct N U).spares x = true := by
      simpa [SchedAct.spares, SchedAct.actor, SchedAct.marks] using Ne.symm hx
    exact ⟨fun _ _ => h.tally.settled.spared hstep hspares, Function.update_of_ne hx _ _,
      fun _ => Iff.rfl, fun _ hf => filled_fill_of_ne hx hf, fun _ hk => hk⟩

theorem Filled.requeued {tm tm' : Timers N U} {q q' : List (DescRef N)} {when : Int}
    (h : Filled tm x when) (hreq : Requeued tm tm' π q q') : Filled tm' x when := by
  unfold Filled
  rw [hreq.time_eq, hreq.proc_eq, hreq.type_eq]
  exact h

/-- The descriptor is inserted. -/
theorem Orderly.inserts (h : m.Orderly sys) (hcall : m.call p = some c) (hpc : c.pc = .prepared)
    {r : Timers N U × Bool} (hins : m.tm.insertInQueue (sys.pun p) (.stack p) = some r) :
    Orderly sys { m with
      tm := r.1
      call := Function.update m.call p (some { c with pc := .inserted }) } := by
  have hin := h.calls p c hcall
  have hplace := hin.place
  unfold Place at hplace
  rw [hpc] at hplace
  have hnew : ∀ π, .stack p ∉ m.tm.linked π := by
    intro π hlinked
    obtain ⟨-, -, c', hc', hpc'⟩ := h.linked π p hlinked
    obtain rfl := Option.some.inj (hcall.symm.trans hc')
    rw [hpc] at hpc'
    cases hpc'
  have hfuel : (m.tm.linked (sys.pun p)).length < m.tm.fuel := by
    apply Timers.length_lt (h.chain _)
    intro desc hdesc
    obtain ⟨x, rfl⟩ := h.frames _ desc hdesc
    trivial
  obtain ⟨hreq, -⟩ := insertInQueue_spec (h.chain _) hfuel (hnew _) hins
  have hsplit := m.tm.upTo_append_later (m.tm.time (.stack p)) (m.tm.linked (sys.pun p))
  set q := m.tm.upTo (m.tm.time (.stack p)) (m.tm.linked (sys.pun p)) ++
    .stack p :: m.tm.later (m.tm.time (.stack p)) (m.tm.linked (sys.pun p)) with hq
  have hmem : ∀ desc, desc ∈ q ↔ desc = .stack p ∨ desc ∈ m.tm.linked (sys.pun p) := by
    intro desc
    rw [← hsplit, hq]
    simp only [List.mem_append, List.mem_cons]
    tauto
  obtain ⟨hchain, hlinked, hframes⟩ := h.requeued hreq (by
    intro desc hdesc
    obtain rfl | hold := (hmem desc).mp hdesc
    · exact Or.inr ⟨p, rfl, rfl, hnew⟩
    · exact Or.inl hold)
  refine h.next h.tally hchain hframes h.now ?_
  intro x
  dsimp only
  rw [hlinked]
  by_cases hx : x = p
  · right
    rw [hx]
    have hstate : m.sched.sched_state p ≠ .ready := by
      rw [hplace.2.1]
      nofun
    constructor
    · intro π hmine
      by_cases hπ : π = sys.pun p
      · exact ⟨hπ.symm, hstate, _, Function.update_self _ _ _, rfl⟩
      · rw [Function.update_of_ne hπ] at hmine
        exact absurd hmine (hnew π)
    · intro c' hc'
      rw [Function.update_self] at hc'
      obtain rfl := Option.some.inj hc'
      refine ⟨hin.op, hin.read, fun _ => hin.later (by simp [hpc]), hin.now, ?_⟩
      refine ⟨?_, hplace.2.2.requeued hreq, Or.inl ⟨?_, hstate⟩⟩
      · rw [hplace.1]
        rfl
      · rw [hlinked, Function.update_self]
        exact (hmem _).mpr (Or.inl rfl)
  · left
    have hne : DescRef.stack x ≠ .stack p := by
      intro heq
      exact hx (DescRef.stack.inj heq)
    refine ⟨fun _ _ => ⟨Sched.Stands.refl _ x, rfl⟩, Function.update_of_ne hx _ _, ?_,
      fun _ hf => hf.requeued hreq, fun _ hk => hk⟩
    intro π
    rw [hlinked]
    by_cases hπ : π = sys.pun p
    · rw [hπ, Function.update_self, hmem]
      exact or_iff_right hne
    · rw [Function.update_of_ne hπ]

theorem Orderly.goes (h : m.Orderly sys) (hcall : m.call p = some c)
    (hstep : m.goes sys p c = some n) : n.Orderly sys := by
  unfold Afters.goes at hstep
  split at hstep
  next hpc =>
    split at hstep
    next hlate =>
      obtain ⟨t, ht, rfl⟩ := Option.map_eq_some_iff.mp hstep
      exact h.prepares hcall hpc hlate ht
    next =>
      obtain rfl := Option.some.inj hstep
      exact h.returns hcall hpc
  next hpc =>
    obtain ⟨r, hins, rfl⟩ := Option.map_eq_some_iff.mp hstep
    exact h.inserts hcall hpc hins
  next => cases hstep

/-- Readings that calls gain, and what is read, are as late as the clock. -/
theorem Orderly.reads (h : m.Orderly sys) (π : Fin U) : (m.reads sys π).Orderly sys := by
  refine h.next h.tally h.chain h.frames ?_ ?_
  · intro ρ k hk
    by_cases hρ : ρ = π
    · have hk' : Function.update m.now π (some m.clock) ρ = some k := hk
      rw [hρ, Function.update_self] at hk'
      exact (Option.some.inj hk').symm.le
    · have hk' : Function.update m.now π (some m.clock) ρ = some k := hk
      rw [Function.update_of_ne hρ] at hk'
      exact h.now ρ k hk'
  · intro x
    by_cases hx : sys.pun x = π
    · right
      have hcalls : (m.reads sys π).call x =
          (m.call x).map fun c => { c with readings := c.readings ++ [m.clock] } := if_pos hx
      constructor
      · intro ρ hlinked
        obtain ⟨hpun, hstate, c, hc, hpc⟩ := h.linked ρ x hlinked
        refine ⟨hpun, hstate, { c with readings := c.readings ++ [m.clock] }, ?_, hpc⟩
        rw [hcalls, hc]
        rfl
      · intro c' hc'
        rw [hcalls] at hc'
        obtain ⟨c, hc, rfl⟩ := Option.map_eq_some_iff.mp hc'
        have hin := h.calls x c hc
        refine ⟨hin.op, List.mem_append_left _ hin.read, hin.later, ?_, ?_⟩
        · intro k hk
          have hk' : Function.update m.now π (some m.clock) (sys.pun x) = some k := hk
          rw [hx, Function.update_self] at hk'
          left
          rw [← Option.some.inj hk']
          exact List.mem_append_right _ (List.mem_singleton_self _)
        · have hplace := hin.place
          unfold Place at hplace ⊢
          cases hpc : c.pc with
          | read =>
              rw [hpc] at hplace
              exact hplace
          | prepared =>
              rw [hpc] at hplace
              exact hplace
          | inserted =>
              rw [hpc] at hplace
              obtain ⟨hwaits, hfilled, hlinked | ⟨hready, r, hr, hdue, hrel⟩⟩ := hplace
              · exact ⟨hwaits, hfilled, Or.inl hlinked⟩
              · exact ⟨hwaits, hfilled, Or.inr ⟨hready, r, List.mem_append_left _ hr, hdue, hrel⟩⟩
    · left
      refine ⟨fun _ _ => ⟨Sched.Stands.refl _ x, rfl⟩, if_neg hx, fun _ => Iff.rfl,
        fun _ hf => hf, ?_⟩
      intro k hk
      have hk' : Function.update m.now π (some m.clock) (sys.pun x) = some k := hk
      rwa [Function.update_of_ne hx] at hk'

theorem due_eq {d : Int × DescRef N} (h : m.due π = some d) :
    m.now π = some d.1 ∧ m.tm.head π = some d.2 ∧ m.tm.time d.2 ≤ d.1 := by
  obtain ⟨k, hk, h⟩ := Option.bind_eq_some_iff.mp h
  obtain ⟨head, hhead, h⟩ := Option.bind_eq_some_iff.mp h
  split at h
  next hle =>
    obtain rfl := Option.some.inj h
    exact ⟨hk, hhead, hle⟩
  next => cases h

/-- Who is first in the queue waits, and is handled as an `After`. -/
theorem Orderly.first (h : m.Orderly sys) {head : DescRef N} (hhead : m.tm.head π = some head) :
    ∃ p c rest, head = .stack p ∧ m.tm.linked π = .stack p :: rest ∧ m.Waiting sys π p ∧
      m.call p = some c ∧ c.pc = .inserted ∧ (m.sched.live p).code.waits = true ∧
      Filled m.tm p c.when := by
  have hchain := h.chain π
  rw [hhead] at hchain
  cases hq : m.tm.linked π with
  | nil =>
      rw [hq] at hchain
      cases hchain
  | cons desc rest =>
      rw [hq] at hchain
      obtain rfl := Option.some.inj hchain.1
      obtain ⟨p, rfl⟩ := h.frames π head (by rw [hq]; exact List.mem_cons_self)
      have hwaiting := h.linked π p (by rw [hq]; exact List.mem_cons_self)
      obtain ⟨c, hc, hpc⟩ := hwaiting.2.2
      have hplace := (h.calls p c hc).place
      unfold Place at hplace
      rw [hpc] at hplace
      exact ⟨p, c, rest, rfl, rfl, hwaiting, hc, hpc, hplace.1, hplace.2.1⟩

/-- The handler releases a call whose time has come. -/
theorem Orderly.expires (h : m.Orderly sys) {k : Int} {head : DescRef N}
    (hinside : m.sched.Inside π .timeout) (hnow : m.now π = some k)
    (hhead : m.tm.head π = some head) (hdue : m.tm.time head ≤ k)
    (hstep : m.expire sys π k head = some n) : n.Orderly sys := by
  obtain ⟨p, c, rest, rfl, hq, hwaiting, hcall, hpc, hwaits, htime, hproc, htype⟩ := h.first hhead
  have hpun := hwaiting.1
  have hin := h.calls p c hcall
  have htype' : (m.tm.removeHead π (.stack p)).type (.stack p) = .after := htype
  unfold Afters.expire at hstep
  simp only [htype', hproc, hcall, Option.map_some] at hstep
  obtain ⟨t, hfree, rfl⟩ := Option.map_eq_some_iff.mp hstep
  -- what the handler does is a step of the scheduler
  have hsched : m.sched.step sys (.freeProcess π p) = some t := by
    simp only [Sched.step]
    rw [if_pos ⟨hpun, hwaits⟩, if_pos hinside]
    exact hfree
  have hreq : Requeued m.tm (m.tm.removeHead π (.stack p)) π (m.tm.linked π) rest := by
    have hchain := h.chain π
    rw [hq] at hchain ⊢
    exact removeHead_requeued hchain
  have hsub : ∀ desc ∈ rest, desc ∈ m.tm.linked π := by
    intro desc hdesc
    rw [hq]
    exact List.mem_cons_of_mem _ hdesc
  have hout : DescRef.stack p ∉ rest := by
    have hnodup := (h.chain π).nodup
    rw [hq] at hnodup
    exact (List.nodup_cons.mp hnodup).1
  obtain ⟨hchain, hlinked, hframes⟩ := h.requeued hreq fun desc hdesc =>
    Or.inl (hsub desc hdesc)
  refine h.next (h.tally.step hsched) hchain hframes h.now ?_
  intro x
  dsimp only
  rw [hlinked]
  by_cases hx : x = p
  · right
    rw [hx]
    constructor
    · intro ρ hmine
      by_cases hρ : ρ = π
      · rw [hρ, Function.update_self] at hmine
        exact absurd hmine hout
      · rw [Function.update_of_ne hρ] at hmine
        exact absurd (hpun.symm.trans (h.linked ρ p hmine).1).symm hρ
    · intro c' hc'
      rw [Function.update_self] at hc'
      obtain rfl := Option.some.inj hc'
      obtain ⟨hcode, hop⟩ := h.tally.settled.others (x := p) hsched (by simp [SchedAct.actor])
        (by simp)
      have hlate := hin.later (by simp [hpc])
      refine ⟨hop.trans hin.op, hin.read, hin.later, hin.now, ?_⟩
      unfold Place
      simp only [hpc]
      refine ⟨hcode ▸ hwaits, ⟨htime, hproc, htype⟩, Or.inr ⟨?_, k, ?_, ?_, rfl⟩⟩
      · exact Sched.freeProcess_ready hfree
      · obtain hmem | hle := hin.now k (by rw [hpun]; exact hnow)
        · exact hmem
        · omega
      · omega
  · left
    have hne : DescRef.stack x ≠ .stack p := by
      intro heq
      exact hx (DescRef.stack.inj heq)
    have hspares : (SchedAct.freeProcess π p).spares x = true := by
      simpa [SchedAct.spares, SchedAct.actor, SchedAct.marks] using Ne.symm hx
    refine ⟨fun _ _ => h.tally.settled.spared hsched hspares, Function.update_of_ne hx _ _, ?_,
      fun _ hf => hf, fun _ hk => hk⟩
    intro ρ
    rw [hlinked]
    by_cases hρ : ρ = π
    · rw [hρ, Function.update_self, hq, List.mem_cons]
      exact (or_iff_right hne).symm
    · rw [Function.update_of_ne hρ]

/-- **Every step keeps the invariant.** -/
theorem Orderly.step {act : AfterAct N U} (h : m.Orderly sys) (hstep : m.step sys act = some n) :
    n.Orderly sys := by
  cases act with
  | sched act =>
      obtain ⟨hadm, hstep⟩ := Option.ite_none_right_eq_some.mp hstep
      obtain ⟨t, ht, rfl⟩ := Option.map_eq_some_iff.mp hstep
      exact h.follows hadm ht
  | After p when =>
      obtain ⟨hmay, hstep⟩ := Option.ite_none_right_eq_some.mp hstep
      obtain rfl := Option.some.inj hstep
      exact h.After hmay.1 hmay.2
  | goes p =>
      obtain ⟨-, hstep⟩ := Option.ite_none_right_eq_some.mp hstep
      obtain ⟨c, hcall, hgoes⟩ := Option.bind_eq_some_iff.mp hstep
      exact h.goes hcall hgoes
  | interrupt π =>
      obtain ⟨t, ht, rfl⟩ := Option.map_eq_some_iff.mp hstep
      have hnow : ∀ ρ k, Function.update m.now π none ρ = some k → m.now ρ = some k := by
        intro ρ k hk
        by_cases hρ : ρ = π
        · rw [hρ, Function.update_self] at hk
          cases hk
        · rwa [Function.update_of_ne hρ] at hk
      refine h.next (h.tally.step ht) h.chain h.frames
        (fun ρ k hk => h.now ρ k (hnow ρ k hk)) fun x => Or.inl ?_
      exact keeps_of_step h (.interrupt π .timeout) ht (fun _ _ => rfl) rfl rfl
        (hnow _)
  | reads π =>
      obtain ⟨-, hstep⟩ := Option.ite_none_right_eq_some.mp hstep
      obtain rfl := Option.some.inj hstep
      exact h.reads π
  | expire π =>
      obtain ⟨hinside, hstep⟩ := Option.ite_none_right_eq_some.mp hstep
      obtain ⟨d, hd, hexp⟩ := Option.bind_eq_some_iff.mp hstep
      obtain ⟨hnow, hhead, hdue⟩ := due_eq hd
      exact h.expires hinside hnow hhead hdue hexp
  | tick δ =>
      obtain rfl := Option.some.inj hstep
      refine h.next h.tally h.chain h.frames ?_ fun x => Or.inl ?_
      · intro π k hk
        have hle := h.now π k hk
        dsimp only
        omega
      · exact ⟨fun _ _ => ⟨Sched.Stands.refl _ x, rfl⟩, rfl, fun _ => Iff.rfl, fun _ hf => hf,
          fun _ hk => hk⟩

end Steps

section Results

variable {sys : Procs N U} {m n : Afters N U} {π : Fin U} {p q : Fin N} {c : AfterCall}

theorem orderly_init (sys : Procs N U) (tm : Timers N U) (clock : Int) :
    (init sys tm clock).Orderly sys := by
  have hlinked : ∀ π, (init sys tm clock).tm.linked π = [] := fun _ => rfl
  refine ⟨Sched.tally_init sys, ?_, ?_, ?_, nofun, nofun⟩
  · intro π
    rw [hlinked]
    rfl
  · intro π desc hdesc
    rw [hlinked] at hdesc
    cases hdesc
  · intro π p hp
    rw [hlinked] at hp
    cases hp

/-- A call stays under way when one is put down. -/
theorem update_call_ne_none (hcall : m.call p = some c) (q : Fin N) (d : AfterCall) :
    Function.update m.call q (some d) p ≠ none := by
  by_cases hpq : p = q
  · rw [hpq, Function.update_self]
    exact Option.some_ne_none _
  · rw [Function.update_of_ne hpq, hcall]
    exact Option.some_ne_none _

/-- A call ends at its test of the clock, or in `relinquish`. -/
theorem Orderly.ends {act : AfterAct N U} (h : m.Orderly sys) (hstep : m.step sys act = some n)
    (hcall : m.call p = some c) (hend : n.call p = none) :
    c.when ≤ c.read ∨ c.pc = .inserted ∧ m.sched.sched_state p = .ready := by
  cases act with
  | sched act =>
      obtain ⟨hadm, hstep⟩ := Option.ite_none_right_eq_some.mp hstep
      obtain ⟨t, ht, rfl⟩ := Option.map_eq_some_iff.mp hstep
      by_cases hrun : act = .run p
      · rw [hrun] at hadm ht hend
        have hpc : c.pc = .inserted := by
          change (m.call p).all _ = true at hadm
          rw [hcall] at hadm
          exact of_decide_eq_true hadm
        obtain ⟨hcall', -⟩ | ⟨-, hready⟩ := h.follows_run hcall hpc ht
        · rw [hcall'] at hend
          cases hend
        · exact Or.inr ⟨hpc, hready⟩
      · rw [follow_call hrun, hcall] at hend
        cases hend
  | After q when =>
      obtain ⟨-, hstep⟩ := Option.ite_none_right_eq_some.mp hstep
      obtain rfl := Option.some.inj hstep
      exact absurd hend (update_call_ne_none hcall q _)
  | goes q =>
      obtain ⟨-, hstep⟩ := Option.ite_none_right_eq_some.mp hstep
      obtain ⟨c', hcall', hgoes⟩ := Option.bind_eq_some_iff.mp hstep
      unfold Afters.goes at hgoes
      split at hgoes
      next =>
        split at hgoes
        next =>
          obtain ⟨t, -, rfl⟩ := Option.map_eq_some_iff.mp hgoes
          exact absurd hend (update_call_ne_none hcall q _)
        next hle =>
          obtain rfl := Option.some.inj hgoes
          by_cases hpq : p = q
          · left
            rw [← hpq, hcall] at hcall'
            obtain rfl := Option.some.inj hcall'
            omega
          · dsimp only at hend
            rw [Function.update_of_ne hpq, hcall] at hend
            cases hend
      next =>
        obtain ⟨r, -, rfl⟩ := Option.map_eq_some_iff.mp hgoes
        exact absurd hend (update_call_ne_none hcall q _)
      next => cases hgoes
  | interrupt π =>
      obtain ⟨t, -, rfl⟩ := Option.map_eq_some_iff.mp hstep
      rw [hcall] at hend
      cases hend
  | reads π =>
      obtain ⟨-, hstep⟩ := Option.ite_none_right_eq_some.mp hstep
      obtain rfl := Option.some.inj hstep
      simp only [Afters.reads, hcall] at hend
      split at hend <;> cases hend
  | expire π =>
      obtain ⟨-, hstep⟩ := Option.ite_none_right_eq_some.mp hstep
      obtain ⟨d, -, hexp⟩ := Option.bind_eq_some_iff.mp hstep
      unfold Afters.expire at hexp
      dsimp only at hexp
      split at hexp
      · obtain ⟨t, -, rfl⟩ := Option.map_eq_some_iff.mp hexp
        dsimp only at hend
        by_cases hp : p = m.tm.proc d.2
        · rw [← hp, Function.update_self, hcall] at hend
          cases hend
        · rw [Function.update_of_ne hp, hcall] at hend
          cases hend
      · obtain rfl := Option.some.inj hexp
        rw [hcall] at hend
        cases hend
  | tick δ =>
      obtain rfl := Option.some.inj hstep
      rw [hcall] at hend
      cases hend

theorem Orderly.inTime (h : m.Orderly sys) (act : AfterAct N U) : m.InTime sys act := by
  intro n hstep p hnone
  have hn := h.step hstep
  constructor
  · intro c hcall
    have hin := h.calls p c hcall
    obtain hdue | ⟨hpc, hready⟩ := h.ends hstep hcall hnone
    · exact ⟨c.read, hin.read, hdue, Or.inl rfl⟩
    · have hplace := hin.place
      unfold Place at hplace
      rw [hpc] at hplace
      obtain ⟨-, hne⟩ | ⟨-, r, hr, hdue, hreleased⟩ := hplace.2.2
      · exact absurd hready hne
      · exact ⟨r, hr, hdue, Or.inr hreleased⟩
  · intro π
    refine ⟨hn.chain π, fun hlinked => ?_⟩
    obtain ⟨-, -, c, hcall, -⟩ := hn.linked π p hlinked
    rw [hnone] at hcall
    cases hcall

end Results

/-- The initial process, and the idle one. -/
def idlerBeside : Procs 2 1 where
  pun := ![0, 0]
  pri := ![INIT_PRI, IDLE_PRI]
  initial := 0
  idler := ![1]
  pri_initial := rfl
  pun_idler := by decide
  pri_idler := by decide

-- the timer interrupts between the exchange and the switch of `relinquish`, so the
-- process gives up the processor to itself
example :
    let acts : List (AfterAct 2 1) := [.After 0 5, .goes 0, .goes 0, .sched (.run 0),
      .interrupt 0, .tick 5, .reads 0, .expire 0, .sched (.handle 0), .sched (.handle 0),
      .sched (.handle 0), .sched (.run 0)]
    let start := init idlerBeside (timer_init 0 .after) 0
    (exec (Afters.step idlerBeside) start acts).any (fun m =>
        (m.call 0).any fun c => c.readings = [0, 5] ∧ c.released = some 5) = true ∧
      (exec (Afters.step idlerBeside) start (acts ++ [.sched (.run 0)])).any
        (fun m => (m.call 0).isNone) = true := by
  decide +kernel

end Afters

end Cxp
