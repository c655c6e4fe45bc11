import Cxp.Scheduler

/-!
# What a switch does to the contexts

`schedule0`, `schedule_from_interrupt`, `relinquish_unconditional`, `yield` and
`finish_termination` either leave every process where it is (`Rests`) or hand the
processor to another one (`Hands`): its saved context is restored, and that of the
process that had the processor is saved, unless it is saved already.  A step marks
one process at most as ready, as waiting or as about to wait (`step_marks`).
-/

namespace Cxp

/-- The process whose `sched_state` the step may change. -/
def SchedAct.marks {N U : Nat} : SchedAct N U → Option (Fin N)
  | .prepare p | .par p _ _ | .build _ p | .wake _ p | .run p | .freeProcess _ p => some p
  | _ => none

namespace Sched

variable {N U : Nat}

/-- The states of the processes, and who is whose child, stay. -/
structure Kept (s t : Sched N U) : Prop where
  sched_state : t.sched_state = s.sched_state
  alt_state : t.alt_state = s.alt_state
  children : t.children = s.children
  parent : t.parent = s.parent

/-- Only the queues change. -/
structure Rests (s t : Sched N U) : Prop extends Kept s t where
  current : t.current = s.current
  stackptr : t.stackptr = s.stackptr
  live : t.live = s.live

/-- Processor `π` is handed to `new`; the context of the process that had it is
saved or not. -/
structure Hands (sys : Procs N U) (π : Fin U) (new : Fin N) (saves : Bool) (s t : Sched N U) :
    Prop extends Kept s t where
  pun : sys.pun new = π
  current : t.current = Function.update s.current π new
  stackptr : t.stackptr =
    if saves then Function.update s.stackptr (s.current π) (s.live (s.current π)) else s.stackptr
  live : t.live = Function.update s.live new (t.stackptr new)

/-- `schedule0(proc)` preempts the current process of its processor. -/
def Overrides (sys : Procs N U) (s : Sched N U) (π : Fin U) (proc : Fin N) : Prop :=
  sys.pun proc = π ∧ pri_le (sys.pri proc) (sys.pri (s.current π)) = false

variable {sys : Procs N U} {s t : Sched N U} {π : Fin U} {p x new proc : Fin N} {saves : Bool}

section Functions

theorem enqueue0_rests (hstep : s.enqueue0 sys proc = some t) : Rests s t := by
  obtain ⟨_, _, rfl⟩ := Option.map_eq_some_iff.mp hstep
  exact ⟨⟨rfl, rfl, rfl, rfl⟩, rfl, rfl, rfl⟩

theorem schedule0_switch (hstep : s.schedule0 sys π proc = some t) :
    ¬s.Overrides sys π proc ∧ Rests s t ∨
      s.Overrides sys π proc ∧ Hands sys π proc true s t := by
  unfold Sched.schedule0 at hstep
  unfold Overrides
  dsimp only at hstep
  split at hstep
  next hpun =>
    split at hstep
    next hle =>
      left
      refine ⟨?_, enqueue0_rests hstep⟩
      intro hov
      rw [hle] at hov
      exact absurd hov.2 (by decide)
    next hle =>
      right
      simp only [set_current, hpun, if_true, Option.bind_eq_bind, Option.bind_some,
        Option.pure_def] at hstep
      obtain ⟨s₁, hs₁, hstep⟩ := Option.bind_eq_some_iff.mp hstep
      obtain ⟨_, _, rfl⟩ := Option.map_eq_some_iff.mp hs₁
      obtain rfl := Option.some.inj hstep
      exact ⟨⟨hpun, eq_false_of_ne_true hle⟩, ⟨rfl, rfl, rfl, rfl⟩, hpun, rfl, rfl, rfl⟩
  next hpun =>
    obtain ⟨_, _, rfl⟩ := Option.map_eq_some_iff.mp hstep
    exact Or.inl ⟨fun hov => hpun hov.1, ⟨rfl, rfl, rfl, rfl⟩, rfl, rfl, rfl⟩

theorem schedule_from_interrupt_switch (hstep : s.schedule_from_interrupt sys π = some t) :
    s.outranked sys π = false ∧ t = s ∨
      s.outranked sys π = true ∧ ∃ new, Hands sys π new false s t := by
  unfold Sched.schedule_from_interrupt at hstep
  split at hstep
  next hout =>
    right
    obtain ⟨⟨new, _⟩, _, hstep⟩ := Option.bind_eq_some_iff.mp hstep
    obtain ⟨s₁, hs₁, hstep⟩ := Option.bind_eq_some_iff.mp hstep
    obtain ⟨_, _, rfl⟩ := Option.map_eq_some_iff.mp hs₁
    obtain ⟨s₂, hs₂, hstep⟩ := Option.bind_eq_some_iff.mp hstep
    unfold set_current at hs₂
    split at hs₂
    next hpun =>
      obtain rfl := Option.some.inj hs₂
      obtain rfl := Option.some.inj hstep
      exact ⟨hout, new, ⟨rfl, rfl, rfl, rfl⟩, hpun, rfl, rfl, rfl⟩
    next => cases hs₂
  next hout =>
    exact Or.inl ⟨eq_false_of_ne_true hout, (Option.some.inj hstep).symm⟩

theorem relinquish_switch {w : Wait} (hp : s.current (sys.pun p) = p)
    (hstep : s.relinquish_unconditional sys p w = some t) :
    ∃ new, Hands sys (sys.pun p) new true (s.goto p (.switched w)) t := by
  unfold Sched.relinquish_unconditional at hstep
  obtain ⟨⟨new, _⟩, _, hstep⟩ := Option.bind_eq_some_iff.mp hstep
  obtain ⟨s₁, hs₁, hstep⟩ := Option.bind_eq_some_iff.mp hstep
  unfold set_current at hs₁
  split at hs₁
  next hpun =>
    obtain rfl := Option.some.inj hs₁
    obtain rfl := Option.some.inj hstep
    have hcur : (s.goto p (.switched w)).current (sys.pun p) = p := hp
    refine ⟨new, ⟨rfl, rfl, rfl, rfl⟩, hpun, rfl, ?_, rfl⟩
    rw [if_pos rfl, hcur]
    rfl
  next => cases hs₁

theorem finish_termination_switch (hstep : s.finish_termination sys p = some t) :
    ∃ new, Hands sys (sys.pun p) new false (s.vanish p) t := by
  unfold Sched.finish_termination at hstep
  obtain ⟨⟨new, _⟩, _, hstep⟩ := Option.bind_eq_some_iff.mp hstep
  obtain ⟨s₁, hs₁, hstep⟩ := Option.bind_eq_some_iff.mp hstep
  unfold set_current at hs₁
  split at hs₁
  next hpun =>
    obtain rfl := Option.some.inj hs₁
    obtain rfl := Option.some.inj hstep
    exact ⟨new, ⟨rfl, rfl, rfl, rfl⟩, hpun, rfl, rfl, rfl⟩
  next => cases hs₁

theorem yield_switch (hp : s.current (sys.pun p) = p) (hstep : s.yield sys p = some t) :
    (∃ queues, s.queues.take1 sys (sys.pun p) = some (none, queues) ∧
        t = { s with queues := queues }) ∨
      ∃ new queues, s.queues.take1 sys (sys.pun p) = some (some new, queues) ∧
        Hands sys (sys.pun p) new true (s.doing p .enable) t := by
  unfold Sched.yield at hstep
  obtain ⟨⟨new, queues⟩, htake, hstep⟩ := Option.bind_eq_some_iff.mp hstep
  cases new with
  | none => exact Or.inl ⟨queues, htake, (Option.some.inj hstep).symm⟩
  | some new =>
      right
      obtain ⟨s₁, hs₁, hstep⟩ := Option.bind_eq_some_iff.mp hstep
      obtain ⟨s₂, hs₂, hstep⟩ := Option.bind_eq_some_iff.mp hstep
      unfold set_current at hs₁
      split at hs₁
      next hpun =>
        obtain rfl := Option.some.inj hs₁
        obtain ⟨_, _, rfl⟩ := Option.map_eq_some_iff.mp hs₂
        obtain rfl := Option.some.inj hstep
        have hcur : (s.doing p .enable).current (sys.pun p) = p := hp
        refine ⟨new, queues, htake, ⟨rfl, rfl, rfl, rfl⟩, hpun, rfl, ?_, rfl⟩
        rw [if_pos rfl, hcur]
        rfl
      next => cases hs₁

end Functions

section Contexts

theorem Hands.current_eq (h : Hands sys π new saves s t) : t.current π = new := by
  rw [h.current, Function.update_self]

theorem Hands.live_eq (h : Hands sys π new saves s t) : t.live new = t.stackptr new := by
  rw [h.live, Function.update_self]

theorem Hands.live_of_ne (h : Hands sys π new saves s t) (hx : x ≠ new) :
    t.live x = s.live x := by
  rw [h.live, Function.update_of_ne hx]

theorem Hands.stackptr_of_ne (h : Hands sys π new saves s t) (hx : x ≠ s.current π) :
    t.stackptr x = s.stackptr x := by
  rw [h.stackptr]
  split
  · exact Function.update_of_ne hx _ _
  · rfl

end Contexts

section Marks

variable {act : SchedAct N U} {q : Fin N}

theorem freeProcess_marks (hstep : s.freeProcess sys q = some t) (hx : x ≠ q) :
    t.sched_state x = s.sched_state x := by
  have hready : (s.ready q).sched_state x = s.sched_state x := Function.update_of_ne hx _ _
  unfold Sched.freeProcess at hstep
  split at hstep
  · rw [(enqueue0_rests hstep).sched_state]
    exact hready
  · obtain rfl := Option.some.inj hstep
    exact hready

theorem freeProcess_ready (hstep : s.freeProcess sys q = some t) : t.sched_state q = .ready := by
  have hready : (s.ready q).sched_state q = .ready := Function.update_self _ _ _
  unfold Sched.freeProcess at hstep
  split at hstep
  · rw [(enqueue0_rests hstep).sched_state]
    exact hready
  · obtain rfl := Option.some.inj hstep
    exact hready

/-- A handler changes no `sched_state` on its own. -/
theorem handle_marks {i : Handler N} (hstep : s.handle sys π p i = some t) :
    t.sched_state = s.sched_state := by
  cases i with
  | timeout | user | exit =>
      obtain rfl := Option.some.inj hstep
      rfl
  | freeWaiting q =>
      simp only [Sched.handle] at hstep
      split at hstep
      · exact (enqueue0_rests hstep).sched_state
      · obtain rfl := Option.some.inj hstep
        rfl
  | interproc =>
      simp only [Sched.handle] at hstep
      split at hstep
      · obtain rfl := Option.some.inj hstep
        rfl
      · obtain ⟨-, h⟩ | ⟨-, h⟩ := schedule0_switch hstep
        · exact h.sched_state
        · exact h.sched_state
  | preempt again =>
      obtain ⟨-, rfl⟩ | ⟨-, new, h⟩ := schedule_from_interrupt_switch hstep
      · rfl
      · exact h.sched_state

theorem run_marks (hruns : s.Runs sys p) (hstep : s.run sys p = some t) (hx : x ≠ p) :
    t.sched_state x = s.sched_state x := by
  cases run_cases hstep with
  | schedule hop hschedule =>
      obtain ⟨-, h⟩ | ⟨-, h⟩ := schedule0_switch hschedule
      · rw [h.sched_state]
        rfl
      · rw [h.sched_state]
        rfl
  | waits hop hcode hstate => exact Function.update_of_ne hx _ _
  | parWaits hop hcode hstate => exact Function.update_of_ne hx _ _
  | relinquish hop hcode hrelinquish =>
      obtain ⟨new, h⟩ := relinquish_switch hruns.1 hrelinquish
      rw [h.sched_state]
      rfl
  | finishing hop hcode hfinish =>
      obtain ⟨new, h⟩ := finish_termination_switch hfinish
      rw [h.sched_state]
      rfl
  | _ => rfl

/-- **A step marks one process at most.** -/
theorem step_marks (hstep : s.step sys act = some t) (hx : act.marks ≠ some x) :
    t.sched_state x = s.sched_state x := by
  have hne : ∀ y, act.marks = some y → x ≠ y := by
    intro y hy heq
    exact hx (heq ▸ hy)
  cases step_cases hstep with
  | select hmay => rfl
  | found hmay => rfl
  | prepare hmay => exact Function.update_of_ne (hne _ rfl) _ _
  | par hmay haccepts => exact Function.update_of_ne (hne _ rfl) _ _
  | @build p child kind nc left t hcode hmay hunborn hpri hpun henqueue =>
      have hmade : (s.make_process p child).sched_state x = s.sched_state x :=
        Function.update_of_ne (hne child rfl) _ _
      unfold Sched.enqueue at henqueue
      split at henqueue
      · rw [(enqueue0_rests henqueue).sched_state]
        exact hmade
      · obtain ⟨-, h⟩ | ⟨-, h⟩ := schedule0_switch henqueue
        · rw [h.sched_state]
          exact hmade
        · rw [h.sched_state]
          exact hmade
  | @wake p q hmay hwaits =>
      unfold Sched.wake
      split
      · exact Function.update_of_ne (hne q rfl) _ _
      · exact Function.update_of_ne (hne q rfl) _ _
  | free hmay =>
      unfold Sched.free
      split <;> rfl
  | yield hmay hyield =>
      obtain ⟨_, -, rfl⟩ | ⟨new, _, -, h⟩ := yield_switch hmay.1.1 hyield
      · rfl
      · rw [h.sched_state]
        rfl
  | sync hmay hparent =>
      unfold par_barr_sync
      dsimp only
      split <;> rfl
  | run hruns hrun => exact run_marks hruns hrun (hne _ rfl)
  | interrupt hinside henabled => rfl
  | timeout hpun hwaits hinside hfree => exact freeProcess_marks hfree (hne _ rfl)
  | transmit hpun hwaits hinside hfree =>
      rw [freeProcess_marks hfree (hne _ rfl)]
      rfl
  | freeAlting hpun hinside =>
      unfold Sched.freeAlting
      split <;> rfl
  | handle hinside hhandle => rw [handle_marks hhandle]

/-- Whom a handler frees is Ready. -/
theorem step_freeProcess_ready (hstep : s.step sys (.freeProcess π q) = some t) :
    t.sched_state q = .ready := by
  cases step_cases hstep with
  | timeout hpun hwaits hinside hfree => exact freeProcess_ready hfree
  | transmit hpun hwaits hinside hfree => exact freeProcess_ready hfree

end Marks

end Sched

end Cxp
