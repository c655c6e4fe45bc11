import Cxp.ChannelGuarantees
import Cxp.SchedulerGuarantees
import Cxp.SchedulerTally

/-!
# Channels and selects under the scheduler (`comm.c`, `alt.c`, `timer.c`, `sched.c`)

`Comm` says when a process that waits in `in`, `out` or a select may go on: when it is
runnable.  Here the scheduler says so.  Each step of a call is a step of the process
that has the processor and is in no handler, and does to the process's record what the
call does; the process may be preempted between any two of them.  The processes may be
in anything else besides, and wake each other in `After` and `receive`.

* `out` to an alternation prepares to wait before it calls `freeProcessMaybe`, so the
  process is preparing to wait while it schedules the reader.
* The timeout handler of a processor takes the steps that `Comm` has for it, with
  nothing else happening on the processor.

Nothing of what the scheduler does shows in the calls: they make a run of `Comm`
(`calls_follow`).  In particular nobody goes on who would not be runnable there.
-/

namespace Cxp

open Run

/-- The process is in a select. -/
def Code.alts : Code → Bool
  | .enabling | .disabling | .relinquish .alt | .switched .alt => true
  | _ => false

namespace Pc

variable {N U : Nat} {Chan : Type}

/-- Where the scheduler has a process that stands there in a call. -/
def At : Pc N Chan → Code → Prop
  | .idle, code => code.alts = false
  | .call _ _, code | .wake _ _ _, code | .schedule _ _ _, code | .selected _ _, code =>
      code = .own
  | .free _ _, code | .freeWaiting _ _, code | .freeSchedule _ _, code
  | .relinquish _ _, code => code = .prepared
  | .wait _ _, code => code = .relinquish .sched ∨ code = .switched .sched
  | .enable _ _, code | .fill _ _ _, code | .insert _ _ _, code | .shouldWait _, code =>
      code = .enabling
  | .altWait _, code => code = .relinquish .alt ∨ code = .switched .alt
  | .disable _ _ _, code | .remove _ _ _ _, code | .release _ _ _ _, code
  | .finish _ _, code => code = .disabling

/-- What the process is doing about another one. -/
def About : Pc N Chan → Op N → Prop
  | .idle, op => ∀ q, op ≠ .freeWaiting q
  | .schedule _ _ q, op | .freeSchedule _ q, op => op = .schedule q
  | .freeWaiting _ q, op => op = .freeWaiting q
  | _, op => op = .none ∨ op = .enable

/-- The process has prepared to wait in `in` or `out`. -/
def prepared : Pc N Chan → Bool
  | .free _ _ | .freeWaiting _ _ | .freeSchedule _ _ | .relinquish _ _ | .wait _ _ => true
  | _ => false

/-- What the next step of a call is for the scheduler, if it is anything; `next` is
where it leads. -/
def does (pc : Pc N Chan) (p : Fin N) (next : Pc N Chan) : Option (SchedAct N U) :=
  match pc with
  | .call _ _ =>
      match next with
      | .wake _ _ _ => none
      | _ => some (.prepare p)
  | .wake _ _ q => some (.wake p q)
  | .enable _ _ =>
      match next with
      | .disable _ _ _ => some (.found p)
      | _ => none
  | .schedule _ _ _ | .freeWaiting _ _ | .freeSchedule _ _ | .relinquish _ _ | .wait _ _
  | .shouldWait _ | .altWait _ | .finish _ _ => some (.run p)
  | _ => none

variable {pc : Pc N Chan}

theorem About.enable (h : pc.About (.none : Op N)) : pc.About .enable := by
  cases pc with
  | idle => simp [Pc.About]
  | schedule _ _ _ | freeWaiting _ _ | freeSchedule _ _ => simp [Pc.About] at h
  | _ => exact Or.inr rfl

theorem About.none (h : pc.About (.enable : Op N)) : pc.About .none := by
  cases pc with
  | idle => simp [Pc.About]
  | schedule _ _ _ | freeWaiting _ _ | freeSchedule _ _ => simp [Pc.About] at h
  | _ => exact Or.inl rfl

/-- Who gives up the processor for a call goes on with it where it has. -/
theorem At.switched {w : Wait} (h : pc.At (.relinquish w)) :
    pc.At (.switched w) := by
  cases pc <;> cases w <;> simp_all [Pc.At, Code.alts]

/-- Only a process in no call has not been built. -/
theorem At.idle (h : pc.At .unborn) : pc = .idle := by
  cases pc <;> simp_all [Pc.At]

/-- Where a process has prepared to wait in a call it waits for the scheduler. -/
theorem At.waits {code : Code} (h : pc.At code) (hp : pc.prepared = true) :
    code.waits = true := by
  cases pc with
  | wait _ _ => obtain rfl | rfl := h <;> rfl
  | free _ _ | freeWaiting _ _ | freeSchedule _ _ | relinquish _ _ =>
      obtain rfl : code = .prepared := h
      rfl
  | _ => cases hp

theorem party_schedule [DecidableEq Chan] {Msg : Type} {c : Chan} {buf : Msg}
    {st : SchedState} {run : Bool} (h : (pc.party c buf st run).isSchedule = true) :
    ∃ e q, pc = .schedule e c q := by
  cases pc with
  | schedule e d q =>
      simp only [Pc.party] at h
      split at h
      next hd => exact ⟨e, q, by rw [hd]⟩
      next => simp at h
  | idle | finish _ _ | selected _ _ => simp [Pc.party] at h
  | _ =>
      simp only [Pc.party] at h
      split at h <;> simp at h

theorem party_wait [DecidableEq Chan] {Msg : Type} {c : Chan} {buf : Msg} {b : Bool}
    {st : SchedState} {run : Bool} (h : (pc.party c buf st run) = .wait buf b st run) :
    pc.prepared = true := by
  cases pc with
  | free _ _ | freeWaiting _ _ | freeSchedule _ _ | relinquish _ _ | wait _ _ => rfl
  | idle | finish _ _ | selected _ _ => cases h
  | _ =>
      simp only [Pc.party] at h
      split at h <;> cases h

/-- Where the enabling loop goes on. -/
theorem at_enabling {pc : Pc N Chan} (h : pc.stage = .enabling) :
    (∀ code, pc.At code ↔ code = .enabling) ∧ pc.About (.none : Op N) ∧
      pc.prepared = false := by
  cases pc with
  | enable _ _ | fill _ _ _ | insert _ _ _ | shouldWait _ =>
      exact ⟨fun _ => Iff.rfl, Or.inl rfl, rfl⟩
  | _ => cases h

/-- Where the disabling loop goes on. -/
theorem at_disabling {pc : Pc N Chan} (h : pc.stage = .disabling) :
    (∀ code, pc.At code ↔ code = .disabling) ∧ pc.About (.none : Op N) ∧
      pc.prepared = false := by
  cases pc with
  | disable _ _ _ | remove _ _ _ _ | release _ _ _ _ | finish _ _ =>
      exact ⟨fun _ => Iff.rfl, Or.inl rfl, rfl⟩
  | _ => cases h

theorem does_enabling {pc : Pc N Chan} {p : Fin N} {f : Select Chan} {k : Nat}
    (h : pc.stage = .enabling) : (Pc.enable f k).does (U := U) p pc = none := by
  cases pc <;> first | rfl | cases h

end Pc

/-- The scheduler, and the channels and selects.  `comm.runnable` is kept as `Comm`
has it, and decides nothing. -/
structure Traffic (N U : Nat) (Chan Msg : Type) where
  sched : Sched N U
  comm : Comm N U Chan Msg

/-- One step. -/
inductive TrafficAct (N U : Nat) (Chan Msg : Type)
  /-- a process that is in no call goes on, one in a call yields, is in `relinquish` or
  enables interrupts, or a handler goes on -/
  | sched (act : SchedAct N U)
  /-- a call begins or goes on, time passes, or the timeout handler goes on -/
  | comm (act : CommAct N U Chan Msg)

namespace Traffic

variable {N U : Nat} {Chan Msg : Type} [DecidableEq Chan]

/-- The processor is in the timeout handler. -/
def timing (s : Sched N U) (π : Fin U) : Bool :=
  match (s.live (s.current π)).inside with
  | some .timeout | some (.freeWaiting _) => true
  | _ => false

/-- The next step of the process is the scheduler's own: it enables interrupts, or
gives up the processor. -/
def switches (s : Sched N U) (p : Fin N) : Bool :=
  match (s.live p).op, (s.live p).code with
  | .enable, _ => true
  | _, .relinquish _ => true
  | _, _ => false

/-- What goes on beside the calls. -/
def admits (m : Traffic N U Chan Msg) : SchedAct N U → Bool
  | .prepare p | .par p _ _ | .build p _ | .sync p => m.comm.pc p = .idle
  | .wake p q => m.comm.pc p = .idle && m.comm.pc q = .idle
  | .run p => m.comm.pc p = .idle || switches m.sched p
  | .freeProcess _ q => m.comm.pc q = .idle
  | .handle π => !timing m.sched π
  | .yield _ | .interrupt _ .elapsed | .interrupt _ .interproc | .interrupt _ .user => true
  | .select _ | .found _ | .free _ _ | .freeAlting _ _ | .interrupt _ .timeout => false

/-- The scheduler has given the process the processor again. -/
def resumes (s : Comm N U Chan Msg) (p : Fin N) : Comm N U Chan Msg :=
  { s with runnable := Function.update s.runnable p true }

/-- The next step of the call that `p` is in. -/
def run (sys : Procs N U) (m : Traffic N U Chan Msg) (p : Fin N) :
    Option (Traffic N U Chan Msg) :=
  if switches m.sched p then none
  else
    ((resumes m.comm p).run sys.pun p).bind fun comm =>
      match m.comm.pc p with
      | .free _ q =>
          if m.sched.May sys p (· = .prepared) then some ⟨m.sched.free p q, comm⟩ else none
      | pc =>
          match pc.does p (comm.pc p) with
          | some act => (m.sched.step sys act).map (⟨·, comm⟩)
          | none => if m.sched.May sys p (fun _ => true) then some ⟨m.sched, comm⟩ else none

/-- The next step of `handle_timeout_interrupt`.  A process that it frees is put on the
ready queue in the step that makes it Ready. -/
def handle (sys : Procs N U) (m : Traffic N U Chan Msg) (π : Fin U) :
    Option (Traffic N U Chan Msg) :=
  (m.comm.handle π).bind fun comm =>
    match m.comm.handler π with
    | .loop _ =>
        match comm.handler π with
        | .idle =>
            if m.sched.Inside π .timeout then
              (m.sched.step sys (.handle π)).map (⟨·, comm⟩)
            else none
        | _ => if m.sched.Inside π .timeout then some ⟨m.sched, comm⟩ else none
    | .free x _ => (m.sched.step sys (.freeAlting π x.proc)).map (⟨·, comm⟩)
    | .freeWaiting x _ =>
        if m.sched.Inside π (.freeWaiting x.proc) then
          (m.sched.step sys (.handle π)).bind fun sched =>
            match comm.handler π with
            | .enqueue _ _ => (comm.handle π).map (⟨sched, ·⟩)
            | _ => some ⟨sched, comm⟩
        else none
    | _ => none

/-- One step of the system. -/
def step (net : Net N Chan) (sys : Procs N U) (m : Traffic N U Chan Msg) :
    TrafficAct N U Chan Msg → Option (Traffic N U Chan Msg)
  | .sched act => if m.admits act then (m.sched.step sys act).map (⟨·, m.comm⟩) else none
  | .comm act =>
      match act with
      | .in c =>
          if m.sched.May sys (net.role c .input) (· = .own) then
            (m.comm.step net sys.pun act).map (⟨m.sched, ·⟩)
          else none
      | .out c _ =>
          if m.sched.May sys (net.role c .output) (· = .own) then
            (m.comm.step net sys.pun act).map (⟨m.sched, ·⟩)
          else none
      | .select p _ =>
          (m.sched.step sys (.select p)).bind fun sched =>
            (m.comm.step net sys.pun act).map (⟨sched, ·⟩)
      | .run p => m.run sys p
      | .tick _ => (m.comm.step net sys.pun act).map (⟨m.sched, ·⟩)
      | .interrupt π =>
          (m.sched.step sys (.interrupt π .timeout)).bind fun sched =>
            (m.comm.step net sys.pun act).map (⟨sched, ·⟩)
      | .handle π => m.handle sys π

/-- What a step is for the calls. -/
def obs (m : Traffic N U Chan Msg) : TrafficAct N U Chan Msg → List (CommAct N U Chan Msg)
  | .sched _ => []
  | .comm (.handle π) =>
      match m.comm.handler π with
      | .freeWaiting x _ =>
          if m.comm.alt_state x.proc = .waiting then [.handle π, .handle π] else [.handle π]
      | _ => [.handle π]
  | .comm act => [act]

/-- After `initialize`; the memory holds `msg` in all buffers. -/
def init (sys : Procs N U) (Chan : Type) {Msg : Type} (proc : Fin N) (msg : Msg) :
    Traffic N U Chan Msg :=
  ⟨Sched.init sys, Comm.init N U Chan proc msg⟩

/-- What every run keeps: the two agree on the states and on where everyone stands. -/
structure Joined (net : Net N Chan) (sys : Procs N U) (m : Traffic N U Chan Msg) : Prop where
  tally : m.sched.Tally sys
  inv : Comm.Inv net m.comm
  alt_state : m.sched.alt_state = m.comm.alt_state
  place : ∀ p, (m.comm.pc p).At (m.sched.live p).code ∧ (m.comm.pc p).About (m.sched.live p).op
  sched_state : ∀ p, (m.comm.pc p).prepared = true →
    m.sched.sched_state p = m.comm.sched_state p
  settled : ∀ π r now, m.comm.handler π ≠ .enqueue r now

section Scheduling

variable {sys : Procs N U} {s t : Sched N U} {p q x : Fin N} {act : SchedAct N U}

/-- `freeProcessMaybe`, called by a process that has prepared to wait. -/
theorem free_prepared (h : s.Tally sys) (hmay : s.May sys p (· = .prepared)) :
    (s.free p q).Tally sys := by
  have hcode := hmay.code_eq
  obtain ⟨hruns, hop, -, hidle⟩ := hmay
  have hborn := h.populated.born_current hruns.1
  obtain ⟨seat, hb, hbound⟩ := h.books
  unfold Sched.free
  split
  next halt =>
    have hq : s.Born q := h.populated.alting q (by simp [halt])
    have hpop : Sched.Stepped sys (.run p) s (s.altReady q) := by
      refine h.populated.goes (e := .prepared) (o := .none) rfl hruns hidle rfl rfl ?_ rfl
        (by simp) (by simp) (by simp) ?_ rfl
      · rw [← hcode, ← hop]
        exact (Function.update_eq_self p s.live).symm
      · exact h.populated.alting_update hq
    exact ⟨hpop.populated, h.settled, seat, hb.altReady halt, hbound⟩
  next halt =>
    have hq : s.Born q := h.populated.alting q (by simp [halt])
    have hpop : Sched.Stepped sys (.run p) s (s.doing p (.freeWaiting q)) := by
      refine h.populated.goes (e := .prepared) (o := .freeWaiting q) rfl hruns hidle rfl rfl ?_
        rfl (by simp) (by simp) ?_ h.populated.alting rfl
      · rw [← hcode]
        rfl
      · intro r hr
        obtain hr | hr := hr
        · cases hr
          exact hq
        · cases hr
    exact ⟨hpop.populated, h.settled.doing hruns _, seat,
      hb.does (by simp) (by simp [hop]) (fun _ _ => by rw [hcode]; rfl) hborn, hbound⟩
  next => exact h

variable {net : Net N Chan} {m n : Traffic N U Chan Msg}

/-- A process in no call goes on; it is in no select. -/
theorem run_idle (h : s.Tally sys) (hruns : s.Runs sys p) (hstep : s.run sys p = some t)
    (hcode : (s.live p).code.alts = false) (hop : ∀ q, (s.live p).op ≠ .freeWaiting q) :
    t.alt_state = s.alt_state ∧ (t.live p).code.alts = false ∧
      ∀ q, (t.live p).op ≠ .freeWaiting q := by
  have hset := h.settled
  cases Sched.run_cases hstep with
  | frees hop' _ | freed hop' _ => exact absurd hop' (hop _)
  | schedule hop' hschedule =>
      obtain ⟨hsame, -⟩ := (hset.doing hruns .enable).schedule0_same hschedule
      rw [hsame.alt_state, hsame.code, hsame.op]
      simpa [Sched.doing] using hcode
  | enable hop' => simpa [Sched.doing] using hcode
  | altWaits _ hcode' _ | altReady _ hcode' _ | disabling _ hcode' =>
      rw [hcode'] at hcode
      cases hcode
  | relinquish hop' hcode' hrelinquish =>
      rename_i w
      obtain ⟨new, hhands⟩ := Sched.relinquish_switch hruns.1 hrelinquish
      have hsame := hhands.same (hset.goes_to hruns _) (by simp)
      rw [hsame.alt_state, hsame.code, hsame.op]
      rw [hcode'] at hcode
      cases w <;> simp_all [Sched.goto, Code.alts]
  | switched hop' hcode' =>
      rename_i w
      rw [hcode'] at hcode
      cases w <;> simp_all [Sched.goto, Code.alts, Wait.after]
  | ending hop' hcode' => simp [Code.alts]
  | finishing hop' hcode' hfinish =>
      obtain ⟨new, hhands⟩ := Sched.finish_termination_switch hfinish
      have hstands := hset.finish_stands hruns hfinish p
      rw [hhands.alt_state, hstands.1, hstands.2]
      simp [Sched.vanish, Code.alts]
  | waits hop' _ _ | woken hop' _ _ | parWaits hop' _ _ | parWoken hop' _ _ =>
      simp [Sched.goto, hop', Code.alts]

theorem switches_cases (h : s.Tally sys) (hswitches : switches s p = true) :
    (s.live p).op = .enable ∨ (s.live p).op = .none ∧ ∃ w, (s.live p).code = .relinquish w := by
  obtain ⟨seat, hb, -⟩ := h.books
  unfold switches at hswitches
  split at hswitches
  next hop => exact Or.inl hop
  next w hcode _ =>
    cases hop : (s.live p).op with
    | enable => exact Or.inl rfl
    | none => exact Or.inr ⟨rfl, w, hcode⟩
    | freeWaiting q =>
        have hawaits := hb.waking p q (Or.inl hop)
        rw [hcode] at hawaits
        cases hawaits
    | schedule q =>
        have hawaits := hb.waking p q (Or.inr hop)
        rw [hcode] at hawaits
        cases hawaits
  next => cases hswitches

theorem not_switches (hswitches : switches s p = false) :
    (s.live p).op ≠ .enable ∧ ∀ w, (s.live p).code ≠ .relinquish w := by
  constructor
  · intro hop
    simp [switches, hop] at hswitches
  · intro w hcode
    cases hop : (s.live p).op <;> simp [switches, hop, hcode] at hswitches

/-- A process enables interrupts, or gives up the processor. -/
theorem run_switches (h : s.Tally sys) (hruns : s.Runs sys p) (hstep : s.run sys p = some t)
    (hswitches : switches s p = true) :
    t.alt_state = s.alt_state ∧ t.sched_state = s.sched_state ∧
      ((s.live p).op = .enable ∧ (t.live p).op = .none ∧ (t.live p).code = (s.live p).code ∨
        ∃ w, (s.live p).code = .relinquish w ∧ (t.live p).code = .switched w ∧
          (s.live p).op = .none ∧ (t.live p).op = .none) := by
  obtain hop | ⟨hop, w, hcode⟩ := switches_cases h hswitches
  · simp only [Sched.run, hop, Option.some.injEq] at hstep
    subst hstep
    exact ⟨rfl, rfl, Or.inl (by simp [Sched.doing, hop])⟩
  · simp only [Sched.run, hop, hcode] at hstep
    obtain ⟨new, hhands⟩ := Sched.relinquish_switch hruns.1 hstep
    have hsame := hhands.same (h.settled.goes_to hruns _) (by simp)
    refine ⟨hsame.alt_state, hsame.sched_state, Or.inr ⟨w, hcode, ?_, hop, ?_⟩⟩
    · rw [hsame.code]
      simp [Sched.goto]
    · rw [hsame.op]
      simpa [Sched.goto] using hop

/-- **What goes on beside the calls leaves the `alt_state` of everyone alone.** -/
theorem Joined.admits_alt (h : Joined net sys m) (hadm : m.admits act = true)
    (hstep : m.sched.step sys act = some t) : t.alt_state = m.sched.alt_state := by
  cases Sched.step_cases hstep with
  | prepare _ | par _ _ | interrupt _ _ => rfl
  | select _ | found _ | free _ | freeAlting _ _ => cases hadm
  | @build p child kind nc left t hcode hmay hunborn hpri hpun henqueue =>
      have hkept : t.alt_state = ((m.sched.make_process p child).goto p
          (.par kind nc left)).alt_state := by
        unfold Sched.enqueue at henqueue
        split at henqueue
        · exact (Sched.enqueue0_rests henqueue).alt_state
        · obtain ⟨-, hrests⟩ | ⟨-, hhands⟩ := Sched.schedule0_switch henqueue
          · exact hrests.alt_state
          · exact hhands.alt_state
      have hnone : m.sched.alt_state child = .none := by
        by_contra hne
        exact h.tally.populated.alting child hne hunborn
      rw [hkept]
      change Function.update m.sched.alt_state child .none = _
      rw [← hnone, Function.update_eq_self]
  | wake _ _ =>
      unfold Sched.wake
      split <;> rfl
  | yield hmay hyield =>
      obtain ⟨queues, -, rfl⟩ | ⟨new, queues, -, hhands⟩ := Sched.yield_switch hmay.1.1 hyield
      · rfl
      · exact hhands.alt_state
  | sync _ _ => exact (Sched.par_barr_sync_fields _ _ _).2.2.2.2.1
  | @run p t hruns hrun =>
      obtain hidle | hswitches := Bool.or_eq_true_iff.mp hadm
      · have hplace := h.place p
        rw [of_decide_eq_true hidle] at hplace
        exact (run_idle h.tally hruns hrun hplace.1 hplace.2).1
      · exact (run_switches h.tally hruns hrun hswitches).1
  | timeout _ _ _ hfree =>
      unfold Sched.freeProcess at hfree
      split at hfree
      · exact (Sched.enqueue0_rests hfree).alt_state
      · cases hfree
        rfl
  | transmit _ _ _ hfree =>
      unfold Sched.freeProcess at hfree
      split at hfree
      · exact (Sched.enqueue0_rests hfree).alt_state
      · cases hfree
        rfl
  | @handle π hd t hinside hhandle =>
      have htiming : timing m.sched π = false := by simpa [admits] using hadm
      cases hd with
      | timeout | user | exit =>
          cases hhandle
          rfl
      | freeWaiting q =>
          unfold timing at htiming
          rw [hinside] at htiming
          cases htiming
      | interproc =>
          simp only [Sched.handle] at hhandle
          split at hhandle
          · cases hhandle
            rfl
          · obtain ⟨-, hrests⟩ | ⟨-, hhands⟩ := Sched.schedule0_switch hhandle
            · exact hrests.alt_state
            · exact hhands.alt_state
      | preempt again =>
          obtain ⟨-, rfl⟩ | ⟨-, new, hhands⟩ := Sched.schedule_from_interrupt_switch hhandle
          · rfl
          · exact hhands.alt_state

/-- Whoever takes such a step is in no call after it, or where it was in it. -/
theorem Joined.admits_actor (h : Joined net sys m) (hadm : m.admits act = true)
    (hstep : m.sched.step sys act = some t) (hactor : act.actor = some x) :
    (m.comm.pc x).At (t.live x).code ∧ (m.comm.pc x).About (t.live x).op := by
  have hplace := h.place x
  have hidle : m.comm.pc x = .idle → (t.live x).code.alts = false →
      (∀ q, (t.live x).op ≠ .freeWaiting q) →
      (m.comm.pc x).At (t.live x).code ∧ (m.comm.pc x).About (t.live x).op := by
    intro hpc hcode hop
    rw [hpc]
    exact ⟨hcode, hop⟩
  cases Sched.step_cases hstep <;> cases hactor
  case prepare hmay =>
    apply hidle (of_decide_eq_true hadm) <;> simp [Sched.goto, Code.alts, hmay.2.1]
  case select | found | free => cases hadm
  case par hmay _ =>
    apply hidle (of_decide_eq_true hadm) <;>
      simp [Sched.par, Sched.goto, Code.alts, hmay.2.1]
  case build child kind nc left hunborn hcode hmay hpri hpun henqueue =>
    have hxc : x ≠ child := by
      intro heq
      rw [heq, hunborn] at hcode
      cases hcode
    apply hidle (of_decide_eq_true hadm) <;> rw [Sched.enqueue_live henqueue] <;>
      simp [Sched.goto, Sched.make_process, hxc, Code.alts, hmay.2.1]
  case wake q hwaits hmay =>
    have hpc := of_decide_eq_true (Bool.and_eq_true_iff.mp hadm).1
    have hown := hmay.code_eq
    apply hidle hpc <;> unfold Sched.wake <;> split <;>
      simp [Sched.doing, Sched.ready, hown, Code.alts, hmay.2.1]
  case yield hmay hyield =>
    obtain ⟨queues, -, rfl⟩ | ⟨new, queues, -, hhands⟩ :=
      Sched.yield_switch hmay.1.1 hyield
    · exact hplace
    · have hsame := hhands.same (h.tally.settled.doing hmay.1 .enable) (by simp)
      rw [hsame.code, hsame.op]
      rw [hmay.2.1] at hplace
      simpa [Sched.doing] using And.intro hplace.1 hplace.2.enable
  case sync parent hmay hparent =>
    have hlive := (Sched.par_barr_sync_fields m.sched x parent).2.1
    apply hidle (of_decide_eq_true hadm) <;> rw [hlive]
    · rfl
    · intro q
      dsimp only
      split <;> simp [hmay.2.1]
  case run hruns hrun =>
    obtain hpc | hswitches := Bool.or_eq_true_iff.mp hadm
    · have hpc := of_decide_eq_true hpc
      rw [hpc] at hplace
      obtain ⟨-, hcode, hop⟩ := run_idle h.tally hruns hrun hplace.1 hplace.2
      exact hidle hpc hcode hop
    · obtain ⟨-, -, ⟨hop, hop', hcode⟩ | ⟨w, hcode, hcode', hop, hop'⟩⟩ :=
        run_switches h.tally hruns hrun hswitches
      · rw [hcode, hop']
        rw [hop] at hplace
        exact ⟨hplace.1, hplace.2.none⟩
      · rw [hcode', hop']
        rw [hcode, hop] at hplace
        exact ⟨hplace.1.switched, hplace.2⟩

/-- Nobody in a call is moved by what goes on beside the calls, but where it enables
interrupts or gives up the processor itself. -/
theorem Joined.admits_place (h : Joined net sys m) (hadm : m.admits act = true)
    (hstep : m.sched.step sys act = some t) (x : Fin N) :
    (m.comm.pc x).At (t.live x).code ∧ (m.comm.pc x).About (t.live x).op := by
  have hplace := h.place x
  by_cases hbuild : ∃ p, act = .build p x
  · obtain ⟨p, rfl⟩ := hbuild
    cases Sched.step_cases hstep with
    | build hcode hmay hunborn hpri hpun henqueue =>
        have hxp : x ≠ p := by
          intro heq
          rw [← heq, hunborn] at hcode
          cases hcode
        rw [hunborn] at hplace
        rw [hplace.1.idle, Sched.enqueue_live henqueue]
        simp [Sched.goto, Sched.make_process, hxp, Pc.At, Pc.About, Code.alts]
  by_cases hactor : act.actor = some x
  · exact h.admits_actor hadm hstep hactor
  · obtain ⟨hcode, hop⟩ := h.tally.settled.others hstep hactor fun p heq => hbuild ⟨p, heq⟩
    rw [hcode, hop]
    exact hplace

/-- Who has prepared to wait in a call is woken by calls only. -/
theorem Joined.admits_state (h : Joined net sys m) (hadm : m.admits act = true)
    (hstep : m.sched.step sys act = some t) (hx : (m.comm.pc x).prepared = true) :
    t.sched_state x = m.sched.sched_state x := by
  have hidle : m.comm.pc x ≠ .idle := by
    intro heq
    rw [heq] at hx
    cases hx
  have hmarked : act.marks = some x → t.sched_state x = m.sched.sched_state x := by
    intro hmarks
    cases act <;> cases hmarks
    case prepare | par | freeProcess => exact absurd (of_decide_eq_true hadm) hidle
    case wake =>
      exact absurd (of_decide_eq_true (Bool.and_eq_true_iff.mp hadm).2) hidle
    case build p =>
      cases Sched.step_cases hstep with
      | build hcode hmay hunborn hpri hpun henqueue =>
          have hplace := (h.place x).1
          rw [hunborn] at hplace
          exact absurd hplace.idle hidle
    case run =>
      obtain hpc | hswitches := Bool.or_eq_true_iff.mp hadm
      · exact absurd (of_decide_eq_true hpc) hidle
      · cases Sched.step_cases hstep with
        | run hruns hrun => rw [(run_switches h.tally hruns hrun hswitches).2.1]
  by_cases hmarks : act.marks = some x
  · exact hmarked hmarks
  · exact Sched.step_marks hstep hmarks

/-- **What goes on beside the calls keeps the two joined.** -/
theorem Joined.passes (h : Joined net sys m) (hadm : m.admits act = true)
    (hstep : m.sched.step sys act = some t) : Joined net sys ⟨t, m.comm⟩ where
  tally := h.tally.step hstep
  inv := h.inv
  alt_state := (h.admits_alt hadm hstep).trans h.alt_state
  place := h.admits_place hadm hstep
  sched_state x hx := (h.admits_state hadm hstep hx).trans (h.sched_state x hx)
  settled := h.settled

end Scheduling

section Resuming

variable {net : Net N Chan} {sys : Procs N U} {m n : Traffic N U Chan Msg} {p q : Fin N}

/-- Whoever is about to schedule a process in `Comm` is so for the scheduler. -/
theorem Joined.scheduling {u : Fin N} (h : Joined net sys m)
    (hpc : (∃ e c, m.comm.pc u = .schedule e c q) ∨ ∃ c, m.comm.pc u = .freeSchedule c q) :
    (m.sched.live u).op = .schedule q := by
  have hplace := (h.place u).2
  obtain ⟨e, c, hpc⟩ | ⟨c, hpc⟩ := hpc <;> rw [hpc] at hplace <;> exact hplace

/-- A party that is about to schedule the other one. -/
theorem peer_schedules (h : Comm.Inv net m.comm) {e : End} {c : Chan}
    (hpeer : (m.comm.party net c e.peer).isSchedule = true) :
    ∃ e', m.comm.pc (net.role c e.peer) = .schedule e' c (net.role c e) := by
  obtain ⟨e', q, hpc⟩ := Pc.party_schedule hpeer
  obtain ⟨ha, hq, -⟩ := h.waking (Or.inr hpc)
  have he : e' = e.peer := by
    by_contra hne
    have hrest : e' = e := by cases e <;> cases e' <;> simp_all [End.peer]
    have hrole := ha.role
    rw [hrest] at hrole
    exact Comm.Net.role_peer_ne net c e hrole
  have hback : e.peer.peer = e := by cases e <;> rfl
  rw [he, hback] at hq
  exact ⟨e', by rw [hpc, hq]⟩

/-- The standing of one party of a channel. -/
theorem party_waiter {u : Comm N U Chan Msg} (h : Comm.Inv net u) (c : Chan) (e : End) :
    Meeting.Waiter (u.waiting c = some (net.role c e)) (u.party net c e.peer)
      (u.party net c e) := by
  have hmeets := h.meets c
  cases e with
  | input => exact hmeets.reader_waits
  | output => exact hmeets.writer_waits

/-- Who has the processor where it has given it up has been made Ready, and nobody is
still about to schedule it. -/
theorem Joined.dispatched {w : Wait} (h : Joined net sys m) (hruns : m.sched.Runs sys p)
    (hcode : (m.sched.live p).code = .switched w) :
    (∀ u, (m.sched.live u).op ≠ .schedule p) ∧ m.sched.met p w = true := by
  obtain ⟨seat, hb, hbound⟩ := h.tally.books
  obtain ⟨-, hcalls, hmet⟩ := hb.dispatched (Sched.seat_pos hbound hruns.1) hcode
  refine ⟨fun u hu => ?_, hmet⟩
  have hnone := Finset.filter_eq_empty_iff.mp (Finset.card_eq_zero.mp hcalls)
  exact hnone (Finset.mem_univ u) hu

/-- A process that goes on in `in` or `out` is runnable in `Comm`. -/
theorem Joined.wait_runnable {e : End} {c : Chan} (h : Joined net sys m)
    (hpc : m.comm.pc p = .wait e c) (hready : m.comm.sched_state p = .ready)
    (hcalls : ∀ u, (m.sched.live u).op ≠ .schedule p) : m.comm.runnable p = true := by
  have hp := (h.inv.roles p).channel e c (by rw [hpc]; rfl)
  have hparty : m.comm.party net c e =
      .wait (m.comm.buf e p) true .ready (m.comm.runnable p) := by
    simp [Comm.party, ← hp, hpc, Pc.party, hready]
  have hwaits := party_waiter h.inv c e
  rw [hparty] at hwaits
  obtain ⟨-, -, -, hun⟩ | ⟨-, ⟨-, hun⟩ | ⟨hschedules, -⟩ | ⟨-, -, -, hrun⟩⟩ := hwaits
  · simp [Meeting.Unwoken] at hun
  · simp [Meeting.Unwoken] at hun
  · obtain ⟨e', hu⟩ := peer_schedules h.inv hschedules
    rw [← hp] at hu
    exact absurd (h.scheduling (Or.inl ⟨e', c, hu⟩)) (hcalls _)
  · exact hrun

/-- **Whoever goes on where it has given up the processor is runnable in `Comm`.** -/
theorem Joined.runnable (h : Joined net sys m) (hruns : m.sched.Runs sys p)
    (hswitches : switches m.sched p = false) : m.comm.runnable p = true := by
  have hnot := (not_switches hswitches).2
  have hplace := (h.place p).1
  cases hpc : m.comm.pc p with
  | wait e c =>
      rw [hpc] at hplace
      obtain hcode | hcode := hplace
      · exact absurd hcode (hnot _)
      obtain ⟨hcalls, hmet⟩ := h.dispatched hruns hcode
      apply h.wait_runnable hpc _ hcalls
      rw [← h.sched_state p (by rw [hpc]; rfl)]
      exact of_decide_eq_true hmet
  | altWait f =>
      rw [hpc] at hplace
      obtain hcode | hcode := hplace
      · exact absurd hcode (hnot _)
      obtain ⟨hcalls, hmet⟩ := h.dispatched hruns hcode
      have hready : m.comm.alt_state p = .ready := by
        rw [← h.alt_state]
        exact of_decide_eq_true hmet
      obtain hrun | ⟨u | π, ha⟩ := (h.inv.wakes.each p).woken (by rw [hpc]; rfl) hready
      · exact hrun
      · exact absurd (h.scheduling (Or.inr ha)) (hcalls u)
      · obtain ⟨now, hnow⟩ := ha
        exact absurd hnow (h.settled π p now)
  | _ => exact h.inv.runs p (by rw [hpc]; rfl)

/-- What the scheduler does in a step of a call. -/
inductive Moves (sys : Procs N U) (s : Sched N U) (p : Fin N) (pc next : Pc N Chan) :
    Sched N U → Prop
  | frees {c : Chan} {q : Fin N} (hpc : pc = .free c q) (hmay : s.May sys p (· = .prepared)) :
      Moves sys s p pc next (s.free p q)
  | acts {act : SchedAct N U} {t : Sched N U} (hdoes : pc.does p next = some act)
      (hstep : s.step sys act = some t) : Moves sys s p pc next t
  | quiet (hfree : ∀ c q, pc ≠ .free c q) (hdoes : pc.does (U := U) p next = none)
      (hmay : s.May sys p (fun _ => true)) : Moves sys s p pc next s

omit [DecidableEq Chan] in
/-- The process of a step of a call has the processor. -/
theorem Moves.runs {pc next : Pc N Chan} {s t : Sched N U} (h : Moves sys s p pc next t) :
    s.Runs sys p := by
  cases h with
  | frees hpc hmay => exact hmay.1
  | quiet hfree hdoes hmay => exact hmay.1
  | acts hdoes hstep =>
      apply Sched.actor_runs hstep
      cases pc with
      | call _ _ | enable _ _ =>
          cases next <;> cases hdoes <;> rfl
      | wake _ _ _ | schedule _ _ _ | freeWaiting _ _ | freeSchedule _ _ | relinquish _ _
      | wait _ _ | shouldWait _ | altWait _ | finish _ _ =>
          cases hdoes
          rfl
      | _ => cases hdoes

omit [DecidableEq Chan] in
theorem Moves.quiet_eq {pc next : Pc N Chan} {s t : Sched N U} (h : Moves sys s p pc next t)
    (hfree : ∀ c q, pc ≠ .free c q) (hdoes : pc.does (U := U) p next = none) :
    t = s ∧ s.May sys p (fun _ => true) := by
  cases h with
  | frees hpc hmay => exact absurd hpc (hfree _ _)
  | quiet _ _ hmay => exact ⟨rfl, hmay⟩
  | acts hsome hstep =>
      rw [hdoes] at hsome
      cases hsome

omit [DecidableEq Chan] in
theorem Moves.step_eq {pc next : Pc N Chan} {s t : Sched N U} {act : SchedAct N U}
    (h : Moves sys s p pc next t) (hdoes : pc.does p next = some act) :
    s.step sys act = some t := by
  cases h with
  | frees hpc hmay =>
      rw [hpc] at hdoes
      cases hdoes
  | quiet _ hnone hmay =>
      rw [hdoes] at hnone
      cases hnone
  | acts hsome hstep =>
      rw [hdoes] at hsome
      obtain rfl := Option.some.inj hsome
      exact hstep

/-- The parts of a step of a call. -/
theorem run_moves (hstep : m.run sys p = some n) :
    switches m.sched p = false ∧ (resumes m.comm p).run sys.pun p = some n.comm ∧
      Moves sys m.sched p (m.comm.pc p) (n.comm.pc p) n.sched := by
  unfold run at hstep
  split at hstep
  next => cases hstep
  next hswitches =>
    obtain ⟨comm, hcomm, hstep⟩ := Option.bind_eq_some_iff.mp hstep
    refine ⟨Bool.eq_false_iff.mpr hswitches, ?_⟩
    split at hstep
    next c q hpc =>
      obtain ⟨hmay, hn⟩ := Option.ite_none_right_eq_some.mp hstep
      obtain rfl := Option.some.inj hn
      exact ⟨hcomm, .frees hpc hmay⟩
    next hfree =>
      split at hstep
      next act hdoes =>
        obtain ⟨s, hs, rfl⟩ := Option.map_eq_some_iff.mp hstep
        exact ⟨hcomm, .acts hdoes hs⟩
      next hdoes =>
        obtain ⟨hmay, hn⟩ := Option.ite_none_right_eq_some.mp hstep
        obtain rfl := Option.some.inj hn
        exact ⟨hcomm, .quiet hfree hdoes hmay⟩

/-- **A step of a call** is one of `Comm`, and what that is for the scheduler. -/
theorem Joined.run_parts (h : Joined net sys m) (hstep : m.run sys p = some n) :
    switches m.sched p = false ∧ m.comm.run sys.pun p = some n.comm ∧
      Moves sys m.sched p (m.comm.pc p) (n.comm.pc p) n.sched := by
  obtain ⟨hswitches, hcomm, hmoves⟩ := run_moves hstep
  have hresumes : resumes m.comm p = m.comm := by
    unfold resumes
    rw [← h.runnable hmoves.runs hswitches, Function.update_eq_self]
  rw [hresumes] at hcomm
  exact ⟨hswitches, hcomm, hmoves⟩

end Resuming

section Calls

variable {net : Net N Chan} {sys : Procs N U} {m n : Traffic N U Chan Msg} {p q : Fin N}
  {s : Sched N U} {t : Comm N U Chan Msg} {pc' : Pc N Chan} {act : SchedAct N U}

/-- The two are joined after a step of `p`, if they agree on `p` and on the states that
change. -/
theorem Joined.next (h : Joined net sys m) (htally : s.Tally sys) (hinv : Comm.Inv net t)
    (hothers : ∀ x, x ≠ p → Sched.Stands m.sched s x)
    (hpc : t.pc = Function.update m.comm.pc p pc') (hhandler : t.handler = m.comm.handler)
    (halt : s.alt_state = t.alt_state)
    (hplace : pc'.At (s.live p).code ∧ pc'.About (s.live p).op)
    (hself : pc'.prepared = true → s.sched_state p = t.sched_state p)
    (hstate : ∀ x, x ≠ p → s.sched_state x = m.sched.sched_state x ∧
      t.sched_state x = m.comm.sched_state x ∨ s.sched_state x = t.sched_state x) :
    Joined net sys ⟨s, t⟩ where
  tally := htally
  inv := hinv
  alt_state := halt
  place x := by
    by_cases hx : x = p
    · subst hx
      rw [hpc, Function.update_self]
      exact hplace
    · obtain ⟨hcode, hop⟩ := hothers x hx
      rw [hpc, Function.update_of_ne hx, hcode, hop]
      exact h.place x
  sched_state x hx := by
    change (t.pc x).prepared = true at hx
    rw [hpc] at hx
    by_cases hxp : x = p
    · subst hxp
      rw [Function.update_self] at hx
      exact hself hx
    · rw [Function.update_of_ne hxp] at hx
      obtain ⟨hs, ht⟩ | heq := hstate x hxp
      · exact hs.trans ((h.sched_state x hx).trans ht.symm)
      · exact heq
  settled := by
    rw [hhandler]
    exact h.settled

/-- A step that is nothing for the scheduler. -/
theorem Joined.moves (h : Joined net sys m) (hinv : Comm.Inv net t)
    (hmay : m.sched.May sys p (fun _ => true))
    (hpc : t.pc = Function.update m.comm.pc p pc') (hhandler : t.handler = m.comm.handler)
    (halt : t.alt_state = m.comm.alt_state) (hstate : t.sched_state = m.comm.sched_state)
    (hat : (m.comm.pc p).At (m.sched.live p).code → pc'.At (m.sched.live p).code)
    (habout : pc'.About (.none : Op N))
    (hprepared : pc'.prepared = false) : Joined net sys ⟨m.sched, t⟩ := by
  refine h.next h.tally hinv (fun x _ => Sched.Stands.refl _ x) hpc hhandler
    (h.alt_state.trans halt.symm) ⟨hat (h.place p).1, ?_⟩ ?_ ?_
  · rw [hmay.2.1]
    exact habout
  · rw [hprepared]
    intro hfalse
    cases hfalse
  · intro x _
    exact Or.inl ⟨rfl, by rw [hstate]⟩

/-- A step that is one of the scheduler. -/
theorem Joined.acts (h : Joined net sys m) (hinv : Comm.Inv net t)
    (hstep : m.sched.step sys act = some s) (hactor : act.actor = some p)
    (hbuild : ∀ x, act ≠ .build p x)
    (hpc : t.pc = Function.update m.comm.pc p pc') (hhandler : t.handler = m.comm.handler)
    (halt : s.alt_state = t.alt_state)
    (hplace : pc'.At (s.live p).code ∧ pc'.About (s.live p).op)
    (hself : pc'.prepared = true → s.sched_state p = t.sched_state p)
    (hstate : ∀ x, x ≠ p → s.sched_state x = m.sched.sched_state x ∧
      t.sched_state x = m.comm.sched_state x ∨ s.sched_state x = t.sched_state x) :
    Joined net sys ⟨s, t⟩ := by
  refine h.next (h.tally.step hstep) hinv ?_ hpc hhandler halt hplace hself hstate
  intro x hx
  apply h.tally.settled.others hstep
  · rw [hactor]
    intro heq
    exact hx (Option.some.inj heq).symm
  · intro u heq
    have hu : act.actor = some u := by rw [heq]; rfl
    obtain rfl := Option.some.inj (hactor.symm.trans hu)
    exact hbuild x heq

/-- A process prepares to wait at a channel. -/
theorem Joined.prepares {c : Chan} (h : Joined net sys m)
    (hinv : Comm.Inv net ((m.comm.await p c).goto p pc'))
    (hstep : m.sched.step sys (.prepare p) = some s)
    (hat : pc'.At .prepared) (habout : pc'.About (.none : Op N)) :
    Joined net sys ⟨s, (m.comm.await p c).goto p pc'⟩ := by
  refine h.acts hinv hstep rfl (by simp) rfl rfl ?_ ?_ ?_ ?_ <;>
    (cases Sched.step_cases hstep with | prepare hmay => ?_)
  · exact h.alt_state
  · simpa [Sched.goto, hmay.2.1] using And.intro hat habout
  · intro _
    simp [Sched.goto, Comm.goto, Comm.await]
  · intro x hx
    left
    simp [Sched.goto, Comm.goto, Comm.await, hx]

/-- The section of `in`. -/
theorem Joined.in (h : Joined net sys m) {c : Chan} (hpc : m.comm.pc p = .call .input c)
    (hcomm : m.comm.in p c = some t) (hinv : Comm.Inv net t)
    (hmoves : Moves sys m.sched p (m.comm.pc p) (t.pc p) s) : Joined net sys ⟨s, t⟩ := by
  rw [hpc] at hmoves
  unfold Comm.in at hcomm
  split at hcomm
  next w hw =>
    obtain ⟨src, hsrc, rfl⟩ := Option.map_eq_some_iff.mp hcomm
    have hnext : (((m.comm.transfer c p (m.comm.src src)).goto p (.wake .input c w)).pc p) =
        .wake .input c w := Function.update_self ..
    rw [hnext] at hmoves
    obtain ⟨rfl, hmay⟩ := hmoves.quiet_eq (by simp) rfl
    exact h.moves hinv hmay rfl rfl rfl rfl (by rw [hpc]; exact fun hat => hat) (Or.inl rfl) rfl
  next hw =>
    obtain rfl := Option.some.inj hcomm
    have hnext : ((m.comm.await p c).goto p (.relinquish .input c)).pc p =
        .relinquish .input c := Function.update_self ..
    rw [hnext] at hmoves
    exact h.prepares hinv (hmoves.step_eq rfl) rfl (Or.inl rfl)

/-- The section of `out`. -/
theorem Joined.out (h : Joined net sys m) {c : Chan} (hpc : m.comm.pc p = .call .output c)
    (hinv : Comm.Inv net (m.comm.out p c))
    (hmoves : Moves sys m.sched p (m.comm.pc p) ((m.comm.out p c).pc p) s) :
    Joined net sys ⟨s, m.comm.out p c⟩ := by
  rw [hpc] at hmoves
  unfold Comm.out at hinv hmoves ⊢
  split
  next w hw =>
    rw [hw] at hinv hmoves
    dsimp only at hinv hmoves
    split
    next dest hdest =>
      rw [hdest] at hinv hmoves
      dsimp only at hinv hmoves
      have hnext : ((m.comm.transfer c dest (m.comm.src p)).goto p (.wake .output c w)).pc p =
          .wake .output c w := Function.update_self ..
      rw [hnext] at hmoves
      obtain ⟨rfl, hmay⟩ := hmoves.quiet_eq (by simp) rfl
      exact h.moves hinv hmay rfl rfl rfl rfl (by rw [hpc]; exact fun hat => hat)
        (Or.inl rfl) rfl
    next hdest =>
      rw [hdest] at hinv hmoves
      dsimp only at hinv hmoves
      have hnext : ((m.comm.await p c).goto p (.free c w)).pc p = .free c w :=
        Function.update_self ..
      rw [hnext] at hmoves
      exact h.prepares hinv (hmoves.step_eq rfl) rfl (Or.inl rfl)
  next hw =>
    rw [hw] at hinv hmoves
    dsimp only at hinv hmoves
    have hnext : ((m.comm.await p c).goto p (.relinquish .output c)).pc p =
        .relinquish .output c := Function.update_self ..
    rw [hnext] at hmoves
    exact h.prepares hinv (hmoves.step_eq rfl) rfl (Or.inl rfl)

/-- One party wakes the other, which waits. -/
theorem Joined.wake (h : Joined net sys m) {e : End} {c : Chan}
    (hpc : m.comm.pc p = .wake e c q) (hcomm : m.comm.run sys.pun p = some t)
    (hinv : Comm.Inv net t) (hmoves : Moves sys m.sched p (m.comm.pc p) (t.pc p) s) :
    Joined net sys ⟨s, t⟩ := by
  obtain ⟨-, -, hqp, -, -, b, -, hshow⟩ := h.inv.waking (Or.inl hpc)
  have hq : (m.comm.pc q).prepared = true :=
    Pc.party_wait (hshow (m.comm.dest q) .ready true)
  have hagree := h.sched_state q hq
  rw [hpc] at hmoves
  have hstep : m.sched.step sys (.wake p q) = some s := hmoves.step_eq rfl
  simp only [Comm.run, hpc, Option.some.injEq] at hcomm
  have hplace := (h.place p).1
  rw [hpc] at hplace
  cases Sched.step_cases hstep with
  | wake hmay hwaits =>
      by_cases hwaiting : m.comm.sched_state q = .waiting
      · rw [if_pos hwaiting] at hcomm
        subst hcomm
        refine h.acts hinv hstep rfl (by simp) rfl rfl ?_ ?_ (by simp [Pc.prepared]) ?_ <;>
          unfold Sched.wake <;> rw [if_pos (hagree.trans hwaiting)]
        · exact h.alt_state
        · simpa [Sched.doing, Sched.ready, Pc.About, Pc.At] using hplace
        · intro x hx
          by_cases hxq : x = q
          · right
            simp [Sched.doing, Sched.ready, Comm.goto, hxq]
          · left
            simp [Sched.doing, Sched.ready, Comm.goto, hxq]
      · rw [if_neg hwaiting] at hcomm
        have hne : m.sched.sched_state q ≠ .waiting := by rwa [hagree]
        obtain ⟨hret, -, hsched, -, -, halt, -, -, -, -, hhandler, -⟩ := Comm.ret_fields
          ({ m.comm with
            sched_state := Function.update m.comm.sched_state q .ready } : Comm N U Chan Msg) p e c
        rw [← hcomm] at hinv ⊢
        refine h.acts hinv hstep rfl (by simp) hret hhandler ?_ ?_ (by simp [Pc.prepared]) ?_ <;>
          unfold Sched.wake <;> rw [if_neg hne]
        · rw [halt]
          exact h.alt_state
        · have hop := hmay.2.1
          have hcode : (m.sched.live p).code = .own := hplace
          simp [Sched.ready, Pc.About, Pc.At, hop, hcode, Code.alts]
        · intro x hx
          rw [hsched]
          by_cases hxq : x = q
          · right
            simp [Sched.ready, hxq]
          · left
            simp [Sched.ready, hxq]

/-- What `schedule` does to the processes but switch them. -/
theorem run_schedule (htally : s.Tally sys) (hruns : s.Runs sys p)
    (hop : (s.live p).op = .schedule q) {u : Sched N U} (hstep : s.run sys p = some u) :
    u.sched_state = s.sched_state ∧ u.alt_state = s.alt_state ∧
      (u.live p).code = (s.live p).code ∧ (u.live p).op = .enable := by
  simp only [Sched.run, hop] at hstep
  obtain ⟨hsame, -⟩ := (htally.settled.doing hruns .enable).schedule0_same hstep
  refine ⟨hsame.sched_state, hsame.alt_state, ?_, ?_⟩
  · rw [hsame.code]
    simp [Sched.doing]
  · rw [hsame.op]
    simp [Sched.doing]

/-- One party schedules the other. -/
theorem Joined.schedule (h : Joined net sys m) {e : End} {c : Chan}
    (hpc : m.comm.pc p = .schedule e c q) (hcomm : m.comm.run sys.pun p = some t)
    (hinv : Comm.Inv net t) (hmoves : Moves sys m.sched p (m.comm.pc p) (t.pc p) s) :
    Joined net sys ⟨s, t⟩ := by
  rw [hpc] at hmoves
  have hstep : m.sched.step sys (.run p) = some s := hmoves.step_eq rfl
  simp only [Comm.run, hpc, Option.some.injEq] at hcomm
  obtain ⟨hret, -, hsched, -, -, halt, -, -, -, -, hhandler, -⟩ := Comm.ret_fields
    ({ m.comm with runnable := Function.update m.comm.runnable q true } : Comm N U Chan Msg) p e c
  rw [← hcomm] at hinv ⊢
  have hplace := h.place p
  rw [hpc] at hplace
  have hcode : (m.sched.live p).code = .own := hplace.1
  cases Sched.step_cases hstep with
  | run hruns hrun =>
      obtain ⟨hstate', halt', hcode', hop'⟩ := run_schedule h.tally hruns hplace.2 hrun
      refine h.acts hinv hstep rfl (by simp) hret hhandler ?_ ?_ (by simp [Pc.prepared]) ?_
      · rw [halt, halt']
        exact h.alt_state
      · rw [hcode', hop', hcode]
        simp [Pc.About, Pc.At, Code.alts]
      · intro x _
        left
        rw [hsched, hstate']
        exact ⟨rfl, rfl⟩

/-- The first attempt of `freeProcessMaybe`. -/
theorem Joined.free (h : Joined net sys m) {c : Chan} (hpc : m.comm.pc p = .free c q)
    (hcomm : m.comm.run sys.pun p = some t) (hinv : Comm.Inv net t)
    (hmoves : Moves sys m.sched p (m.comm.pc p) (t.pc p) s) : Joined net sys ⟨s, t⟩ := by
  rw [hpc] at hmoves
  obtain ⟨hs, hmay⟩ : s = m.sched.free p q ∧ m.sched.May sys p (· = .prepared) := by
    cases hmoves with
    | frees hpc' hmay =>
        cases hpc'
        exact ⟨rfl, hmay⟩
    | acts hdoes _ => cases hdoes
    | quiet hfree _ _ => exact absurd rfl (hfree c q)
  subst hs
  have htally := free_prepared (q := q) h.tally hmay
  simp only [Comm.run, hpc, Option.some.injEq] at hcomm
  subst hcomm
  have halt := congrFun h.alt_state q
  have hop := hmay.2.1
  have hcode := hmay.code_eq
  unfold Sched.free at htally ⊢
  cases hq : m.comm.alt_state q with
  | enabling =>
      rw [hq] at hinv halt
      rw [halt] at htally ⊢
      refine h.next htally hinv (fun x _ => Sched.Stands.refl _ x) rfl rfl ?_ ?_ ?_ ?_
      · simp [Sched.altReady, Comm.goto, h.alt_state]
      · simp [Sched.altReady, Pc.At, Pc.About, hop, hcode]
      · intro _
        exact h.sched_state p (by rw [hpc]; rfl)
      · exact fun x _ => Or.inl ⟨rfl, rfl⟩
  | waiting =>
      rw [hq] at hinv halt
      rw [halt] at htally ⊢
      refine h.next htally hinv (fun x hx => Sched.stands_doing hx _) rfl rfl h.alt_state ?_ ?_ ?_
      · simp [Sched.doing, Pc.At, Pc.About, hcode]
      · intro _
        exact h.sched_state p (by rw [hpc]; rfl)
      · exact fun x _ => Or.inl ⟨rfl, rfl⟩
  | none | ready =>
      rw [hq] at hinv halt
      rw [halt] at htally ⊢
      refine h.next htally hinv (fun x _ => Sched.Stands.refl _ x) rfl rfl h.alt_state ?_ ?_ ?_
      · simp [Pc.At, Pc.About, hop, hcode]
      · intro _
        exact h.sched_state p (by rw [hpc]; rfl)
      · exact fun x _ => Or.inl ⟨rfl, rfl⟩

/-- The second attempt of `freeProcessMaybe`. -/
theorem Joined.freeWaiting (h : Joined net sys m) {c : Chan}
    (hpc : m.comm.pc p = .freeWaiting c q) (hcomm : m.comm.run sys.pun p = some t)
    (hinv : Comm.Inv net t) (hmoves : Moves sys m.sched p (m.comm.pc p) (t.pc p) s) :
    Joined net sys ⟨s, t⟩ := by
  rw [hpc] at hmoves
  have hstep : m.sched.step sys (.run p) = some s := hmoves.step_eq rfl
  have hplace := h.place p
  rw [hpc] at hplace
  have hcode : (m.sched.live p).code = .prepared := hplace.1
  have hop : (m.sched.live p).op = .freeWaiting q := hplace.2
  have halt := congrFun h.alt_state q
  simp only [Comm.run, hpc, Option.some.injEq] at hcomm
  obtain ⟨hruns, hrun⟩ := Option.ite_none_right_eq_some.mp hstep
  simp only [Sched.run, hop] at hrun
  by_cases hq : m.comm.alt_state q = .waiting
  · rw [if_pos hq] at hcomm
    rw [if_pos (halt.trans hq)] at hrun
    subst hcomm
    obtain rfl := Option.some.inj hrun
    refine h.acts hinv hstep rfl (by simp) rfl rfl ?_ ?_ ?_ ?_
    · simp [Sched.doing, Sched.altReady, Comm.goto, h.alt_state]
    · simp [Sched.doing, Sched.altReady, Pc.At, Pc.About, hcode]
    · intro _
      exact h.sched_state p (by rw [hpc]; rfl)
    · exact fun x _ => Or.inl ⟨rfl, rfl⟩
  · rw [if_neg hq] at hcomm
    rw [if_neg (by rwa [halt])] at hrun
    subst hcomm
    obtain rfl := Option.some.inj hrun
    refine h.acts hinv hstep rfl (by simp) rfl rfl h.alt_state ?_ ?_ ?_
    · simp [Sched.doing, Pc.At, Pc.About, hcode]
    · intro _
      exact h.sched_state p (by rw [hpc]; rfl)
    · exact fun x _ => Or.inl ⟨rfl, rfl⟩

/-- `freeProcessMaybe` schedules the reader. -/
theorem Joined.freeSchedule (h : Joined net sys m) {c : Chan}
    (hpc : m.comm.pc p = .freeSchedule c q) (hcomm : m.comm.run sys.pun p = some t)
    (hinv : Comm.Inv net t) (hmoves : Moves sys m.sched p (m.comm.pc p) (t.pc p) s) :
    Joined net sys ⟨s, t⟩ := by
  rw [hpc] at hmoves
  have hstep : m.sched.step sys (.run p) = some s := hmoves.step_eq rfl
  have hplace := h.place p
  rw [hpc] at hplace
  have hcode : (m.sched.live p).code = .prepared := hplace.1
  simp only [Comm.run, hpc, Option.some.injEq] at hcomm
  subst hcomm
  obtain ⟨hruns, hrun⟩ := Option.ite_none_right_eq_some.mp hstep
  obtain ⟨hstate', halt', hcode', hop'⟩ := run_schedule h.tally hruns hplace.2 hrun
  refine h.acts hinv hstep rfl (by simp) rfl rfl (halt'.trans h.alt_state) ?_ ?_ ?_
  · rw [hcode', hop', hcode]
    simp [Pc.About, Pc.At]
  · intro _
    rw [hstate']
    exact h.sched_state p (by rw [hpc]; rfl)
  · intro x _
    rw [hstate']
    exact Or.inl ⟨rfl, rfl⟩

/-- `relinquish` tries to make the process Waiting. -/
theorem Joined.relinquish (h : Joined net sys m) {e : End} {c : Chan}
    (hpc : m.comm.pc p = .relinquish e c) (hcomm : m.comm.run sys.pun p = some t)
    (hinv : Comm.Inv net t) (hmoves : Moves sys m.sched p (m.comm.pc p) (t.pc p) s)
    (hswitches : switches m.sched p = false) : Joined net sys ⟨s, t⟩ := by
  rw [hpc] at hmoves
  have hstep : m.sched.step sys (.run p) = some s := hmoves.step_eq rfl
  have hplace := h.place p
  rw [hpc] at hplace
  have hcode : (m.sched.live p).code = .prepared := hplace.1
  have hop : (m.sched.live p).op = .none := hplace.2.resolve_right (not_switches hswitches).1
  have hagree := h.sched_state p (by rw [hpc]; rfl)
  simp only [Comm.run, hpc, Option.some.injEq] at hcomm
  obtain ⟨-, hrun⟩ := Option.ite_none_right_eq_some.mp hstep
  simp only [Sched.run, hop, hcode] at hrun
  by_cases hprep : m.comm.sched_state p = .preparingToWait
  · rw [if_pos hprep] at hcomm
    rw [if_pos (hagree.trans hprep)] at hrun
    subst hcomm
    obtain rfl := Option.some.inj hrun
    refine h.acts hinv hstep rfl (by simp) rfl rfl h.alt_state ?_ ?_ ?_
    · simp [Sched.goto, Pc.At, Pc.About, hop]
    · intro _
      simp [Sched.goto, Comm.goto]
    · intro x hx
      left
      simp [Sched.goto, Comm.goto, hx]
  · rw [if_neg hprep] at hcomm
    rw [if_neg (by rwa [hagree])] at hrun
    obtain ⟨hret, -, hsched, -, -, halt, -, -, -, -, hhandler, -⟩ := Comm.ret_fields m.comm p e c
    rw [← hcomm] at hinv ⊢
    obtain rfl := Option.some.inj hrun
    refine h.acts hinv hstep rfl (by simp) hret hhandler ?_ ?_ (by simp [Pc.prepared]) ?_
    · rw [halt]
      exact h.alt_state
    · simp [Sched.goto, Pc.At, Pc.About, hop, Code.alts]
    · intro x _
      rw [hsched]
      exact Or.inl ⟨rfl, rfl⟩

/-- A process goes on where it has waited. -/
theorem run_switched {w : Wait} (hcode : (s.live p).code = .switched w)
    (hop : (s.live p).op = .none) {u : Sched N U} (hstep : s.run sys p = some u) :
    u = s.goto p w.after := by
  simp only [Sched.run, hop, hcode, Option.some.injEq] at hstep
  exact hstep.symm

/-- `in` or `out` returns to a process that has waited. -/
theorem Joined.wait (h : Joined net sys m) {e : End} {c : Chan}
    (hpc : m.comm.pc p = .wait e c) (hcomm : m.comm.run sys.pun p = some t)
    (hinv : Comm.Inv net t) (hmoves : Moves sys m.sched p (m.comm.pc p) (t.pc p) s)
    (hswitches : switches m.sched p = false) : Joined net sys ⟨s, t⟩ := by
  rw [hpc] at hmoves
  have hstep : m.sched.step sys (.run p) = some s := hmoves.step_eq rfl
  have hplace := h.place p
  rw [hpc] at hplace
  obtain ⟨henable, hrelinquish⟩ := not_switches hswitches
  have hcode := hplace.1.resolve_left (hrelinquish _)
  have hop : (m.sched.live p).op = .none := hplace.2.resolve_right henable
  simp only [Comm.run, hpc] at hcomm
  obtain ⟨-, hcomm⟩ := Option.ite_none_right_eq_some.mp hcomm
  obtain ⟨-, hrun⟩ := Option.ite_none_right_eq_some.mp hstep
  obtain rfl := run_switched hcode hop hrun
  obtain ⟨hret, -, hsched, -, -, halt, -, -, -, -, hhandler, -⟩ := Comm.ret_fields m.comm p e c
  rw [← Option.some.inj hcomm] at hinv ⊢
  refine h.acts hinv hstep rfl (by simp) hret hhandler ?_ ?_ (by simp [Pc.prepared]) ?_
  · rw [halt]
    exact h.alt_state
  · simp [Sched.goto, Pc.At, Pc.About, hop, Code.alts, Wait.after]
  · intro x _
    rw [hsched]
    exact Or.inl ⟨rfl, rfl⟩

/-- A select tries to make the process Waiting. -/
theorem Joined.shouldWait (h : Joined net sys m) {f : Select Chan}
    (hpc : m.comm.pc p = .shouldWait f) (hcomm : m.comm.run sys.pun p = some t)
    (hinv : Comm.Inv net t) (hmoves : Moves sys m.sched p (m.comm.pc p) (t.pc p) s)
    (hswitches : switches m.sched p = false) : Joined net sys ⟨s, t⟩ := by
  rw [hpc] at hmoves
  have hstep : m.sched.step sys (.run p) = some s := hmoves.step_eq rfl
  have hplace := h.place p
  rw [hpc] at hplace
  have hcode : (m.sched.live p).code = .enabling := hplace.1
  have hop : (m.sched.live p).op = .none := hplace.2.resolve_right (not_switches hswitches).1
  have halt := congrFun h.alt_state p
  simp only [Comm.run, hpc, Option.some.injEq] at hcomm
  obtain ⟨-, hrun⟩ := Option.ite_none_right_eq_some.mp hstep
  simp only [Sched.run, hop, hcode] at hrun
  by_cases henabling : m.comm.alt_state p = .enabling
  · rw [if_pos henabling] at hcomm
    rw [if_pos (halt.trans henabling)] at hrun
    subst hcomm
    obtain rfl := Option.some.inj hrun
    refine h.acts hinv hstep rfl (by simp) rfl rfl ?_ ?_ (by simp [Pc.prepared]) ?_
    · simp [Sched.goto, Comm.goto, h.alt_state]
    · simp [Sched.goto, Pc.At, Pc.About, hop]
    · exact fun x _ => Or.inl ⟨rfl, rfl⟩
  · rw [if_neg henabling] at hcomm
    rw [if_neg (by rwa [halt])] at hrun
    subst hcomm
    obtain rfl := Option.some.inj hrun
    refine h.acts hinv hstep rfl (by simp) rfl rfl h.alt_state ?_ (by simp [Pc.prepared]) ?_
    · simp [Sched.goto, Pc.At, Pc.About, hop]
    · exact fun x _ => Or.inl ⟨rfl, rfl⟩

/-- A select goes on where it has waited. -/
theorem Joined.altWait (h : Joined net sys m) {f : Select Chan}
    (hpc : m.comm.pc p = .altWait f) (hcomm : m.comm.run sys.pun p = some t)
    (hinv : Comm.Inv net t) (hmoves : Moves sys m.sched p (m.comm.pc p) (t.pc p) s)
    (hswitches : switches m.sched p = false) : Joined net sys ⟨s, t⟩ := by
  rw [hpc] at hmoves
  have hstep : m.sched.step sys (.run p) = some s := hmoves.step_eq rfl
  have hplace := h.place p
  rw [hpc] at hplace
  obtain ⟨henable, hrelinquish⟩ := not_switches hswitches
  have hcode := hplace.1.resolve_left (hrelinquish _)
  have hop : (m.sched.live p).op = .none := hplace.2.resolve_right henable
  simp only [Comm.run, hpc] at hcomm
  obtain ⟨-, hcomm⟩ := Option.ite_none_right_eq_some.mp hcomm
  obtain ⟨-, hrun⟩ := Option.ite_none_right_eq_some.mp hstep
  obtain rfl := run_switched hcode hop hrun
  obtain rfl := Option.some.inj hcomm
  refine h.acts hinv hstep rfl (by simp) rfl rfl h.alt_state ?_ (by simp [Pc.prepared]) ?_
  · simp [Sched.goto, Pc.At, Pc.About, hop, Wait.after]
  · exact fun x _ => Or.inl ⟨rfl, rfl⟩

/-- A select marks itself finished. -/
theorem Joined.finish (h : Joined net sys m) {f : Select Chan} {selected : Option Nat}
    (hpc : m.comm.pc p = .finish f selected) (hcomm : m.comm.run sys.pun p = some t)
    (hinv : Comm.Inv net t) (hmoves : Moves sys m.sched p (m.comm.pc p) (t.pc p) s)
    (hswitches : switches m.sched p = false) : Joined net sys ⟨s, t⟩ := by
  rw [hpc] at hmoves
  have hstep : m.sched.step sys (.run p) = some s := hmoves.step_eq rfl
  have hplace := h.place p
  rw [hpc] at hplace
  have hcode : (m.sched.live p).code = .disabling := hplace.1
  have hop : (m.sched.live p).op = .none := hplace.2.resolve_right (not_switches hswitches).1
  simp only [Comm.run, hpc, Option.some.injEq] at hcomm
  subst hcomm
  obtain ⟨-, hrun⟩ := Option.ite_none_right_eq_some.mp hstep
  simp only [Sched.run, hop, hcode, Option.some.injEq] at hrun
  subst hrun
  refine h.acts hinv hstep rfl (by simp) rfl rfl ?_ ?_ (by simp [Pc.prepared]) ?_
  · simp [Sched.goto, Comm.goto, h.alt_state]
  · simp [Sched.goto, Pc.At, Pc.About, hop]
  · exact fun x _ => Or.inl ⟨rfl, rfl⟩

/-- What `enable` leaves alone, and where it leads. -/
theorem enable_fields (s : Comm N U Chan Msg) (p : Fin N) (f : Select Chan) (k : Nat) :
    ∃ pc', (s.enable p f k).pc = Function.update s.pc p pc' ∧
      (s.enable p f k).handler = s.handler ∧ (s.enable p f k).alt_state = s.alt_state ∧
      (s.enable p f k).sched_state = s.sched_state ∧
      ((∃ g l sel, pc' = .disable g l sel) ∨ pc'.stage = .enabling) := by
  have htimeout : ∀ (k : Nat) time, (∃ g l sel, s.enable_timeout f k time = .disable g l sel) ∨
      (s.enable_timeout f k time).stage = .enabling := by
    intro k time
    unfold Comm.enable_timeout
    split
    · exact Or.inl ⟨_, _, _, rfl⟩
    · exact Or.inr rfl
  unfold Comm.enable
  split
  next c hg =>
    have hfields : (s.enable_channel c p).1.pc = s.pc ∧
        (s.enable_channel c p).1.handler = s.handler ∧
        (s.enable_channel c p).1.alt_state = s.alt_state ∧
        (s.enable_channel c p).1.sched_state = s.sched_state := by
      unfold Comm.enable_channel
      split <;> exact ⟨rfl, rfl, rfl, rfl⟩
    obtain ⟨hpc, hhandler, halt, hsched⟩ := hfields
    refine ⟨if (s.enable_channel c p).2 then .disable f (k + 1) none else .enable f (k + 1), ?_,
      hhandler, halt, hsched, ?_⟩
    · simp only [Comm.goto, hpc]
    · split
      · exact Or.inl ⟨_, _, _, rfl⟩
      · exact Or.inr rfl
  next => exact ⟨_, rfl, rfl, rfl, rfl, Or.inl ⟨_, _, _, rfl⟩⟩
  next time hg => exact ⟨_, rfl, rfl, rfl, rfl, htimeout k time⟩
  next =>
    refine ⟨_, rfl, rfl, rfl, rfl, ?_⟩
    split
    · exact htimeout f.size f.earliest
    · exact Or.inr rfl

/-- A round of the enabling loop. -/
theorem Joined.enable (h : Joined net sys m) {f : Select Chan} {k : Nat}
    (hpc : m.comm.pc p = .enable f k) (hcomm : m.comm.run sys.pun p = some t)
    (hinv : Comm.Inv net t) (hmoves : Moves sys m.sched p (m.comm.pc p) (t.pc p) s) :
    Joined net sys ⟨s, t⟩ := by
  simp only [Comm.run, hpc, Option.some.injEq] at hcomm
  subst hcomm
  obtain ⟨pc', hnext, hhandler, halt, hsched, hstage⟩ := enable_fields m.comm p f k
  have hp : (m.comm.enable p f k).pc p = pc' := by rw [hnext, Function.update_self]
  rw [hpc, hp] at hmoves
  obtain ⟨g, l, sel, rfl⟩ | hstage := hstage
  · have hstep : m.sched.step sys (.found p) = some s := hmoves.step_eq rfl
    cases Sched.step_cases hstep with
    | found hmay =>
        refine h.acts hinv hstep rfl (by simp) hnext hhandler ?_ ?_ (by simp [Pc.prepared]) ?_
        · rw [halt]
          exact h.alt_state
        · simp [Sched.goto, Pc.At, Pc.About, hmay.2.1]
        · intro x _
          rw [hsched]
          exact Or.inl ⟨rfl, rfl⟩
  · obtain ⟨rfl, hmay⟩ := hmoves.quiet_eq (by simp) (Pc.does_enabling hstage)
    obtain ⟨hat, habout, hprepared⟩ := Pc.at_enabling hstage
    refine h.moves hinv hmay hnext hhandler halt hsched ?_ habout hprepared
    rw [hpc]
    exact (hat _).mpr

/-- What `disable` leaves alone, and where it leads. -/
theorem disable_fields {u : Comm N U Chan Msg} {f : Select Chan} {sel : Option Nat} {k : Nat}
    (hdisable : m.comm.disable p f sel k = some u) :
    ∃ pc', u.pc = Function.update m.comm.pc p pc' ∧ u.handler = m.comm.handler ∧
      u.alt_state = m.comm.alt_state ∧ u.sched_state = m.comm.sched_state ∧
      pc'.stage = .disabling := by
  cases k with
  | zero =>
      obtain rfl := Option.some.inj hdisable
      exact ⟨_, rfl, rfl, rfl, rfl, rfl⟩
  | succ k =>
      simp only [Comm.disable] at hdisable
      split at hdisable
      next c hg =>
        obtain rfl := Option.some.inj hdisable
        have hfields : (m.comm.disable_channel c p).1.pc = m.comm.pc ∧
            (m.comm.disable_channel c p).1.handler = m.comm.handler ∧
            (m.comm.disable_channel c p).1.alt_state = m.comm.alt_state ∧
            (m.comm.disable_channel c p).1.sched_state = m.comm.sched_state := by
          unfold Comm.disable_channel
          split <;> exact ⟨rfl, rfl, rfl, rfl⟩
        obtain ⟨hpc, hhandler, halt, hsched⟩ := hfields
        refine ⟨.disable f k (if (m.comm.disable_channel c p).2 then some (f.index k) else sel),
          ?_, hhandler, halt, hsched, rfl⟩
        simp only [Comm.goto, hpc]
      next =>
        obtain rfl := Option.some.inj hdisable
        exact ⟨_, rfl, rfl, rfl, rfl, rfl⟩
      next =>
        obtain rfl := Option.some.inj hdisable
        exact ⟨_, rfl, rfl, rfl, rfl, rfl⟩
      next => cases hdisable

/-- A round of the disabling loop, with what it does at the timer queue. -/
theorem Joined.disables (h : Joined net sys m) (hstage : (m.comm.pc p).stage = .disabling)
    (hfinish : ∀ f sel, m.comm.pc p ≠ .finish f sel)
    (hcomm : m.comm.run sys.pun p = some t)
    (hinv : Comm.Inv net t) (hmoves : Moves sys m.sched p (m.comm.pc p) (t.pc p) s) :
    Joined net sys ⟨s, t⟩ := by
  obtain ⟨pc', hnext, hhandler, halt, hsched, hstage'⟩ : ∃ pc',
      t.pc = Function.update m.comm.pc p pc' ∧ t.handler = m.comm.handler ∧
      t.alt_state = m.comm.alt_state ∧ t.sched_state = m.comm.sched_state ∧
      pc'.stage = .disabling := by
    cases hpc : m.comm.pc p with
    | disable f k sel =>
        simp only [Comm.run, hpc] at hcomm
        exact disable_fields hcomm
    | remove f k sel time =>
        simp only [Comm.run, hpc] at hcomm
        obtain ⟨r, -, rfl⟩ := Option.map_eq_some_iff.mp hcomm
        refine ⟨_, rfl, rfl, rfl, rfl, ?_⟩
        cases r.2 <;> rfl
    | release f k sel desc =>
        simp only [Comm.run, hpc, Option.some.injEq] at hcomm
        subst hcomm
        exact ⟨_, rfl, rfl, rfl, rfl, rfl⟩
    | finish f sel => exact absurd hpc (hfinish f sel)
    | _ =>
        rw [hpc] at hstage
        cases hstage
  obtain ⟨rfl, hmay⟩ : s = m.sched ∧ m.sched.May sys p (fun _ => true) := by
    apply hmoves.quiet_eq
    · intro c q heq
      rw [heq] at hstage
      cases hstage
    · cases hpc : m.comm.pc p with
      | finish f sel => exact absurd hpc (hfinish f sel)
      | disable _ _ _ | remove _ _ _ _ | release _ _ _ _ => rfl
      | _ =>
          rw [hpc] at hstage
          cases hstage
  obtain ⟨hat, habout, hprepared⟩ := Pc.at_disabling hstage'
  refine h.moves hinv hmay hnext hhandler halt hsched ?_ habout hprepared
  intro hcode
  exact (hat _).mpr (((Pc.at_disabling hstage).1 _).mp hcode)

/-- **Every step of a call is one of `Comm`, and keeps the two joined.** -/
theorem Joined.run (h : Joined net sys m) (hstep : m.run sys p = some n) :
    m.comm.run sys.pun p = some n.comm ∧ Joined net sys n := by
  obtain ⟨hswitches, hcomm, hmoves⟩ := h.run_parts hstep
  have hinv := h.inv.run hcomm
  refine ⟨hcomm, ?_⟩
  have hold := hcomm
  change Joined net sys ⟨n.sched, n.comm⟩
  cases hpc : m.comm.pc p with
  | idle =>
      simp only [Comm.run, hpc] at hold
      cases hold
  | call e c =>
      simp only [Comm.run, hpc] at hold
      cases e with
      | input => exact h.in hpc hold hinv hmoves
      | output =>
          have hout := Option.some.inj hold
          rw [← hout] at hinv hmoves ⊢
          exact h.out hpc hinv hmoves
  | wake e c q => exact h.wake hpc hcomm hinv hmoves
  | schedule e c q => exact h.schedule hpc hcomm hinv hmoves
  | free c q => exact h.free hpc hcomm hinv hmoves
  | freeWaiting c q => exact h.freeWaiting hpc hcomm hinv hmoves
  | freeSchedule c q => exact h.freeSchedule hpc hcomm hinv hmoves
  | relinquish e c => exact h.relinquish hpc hcomm hinv hmoves hswitches
  | wait e c => exact h.wait hpc hcomm hinv hmoves hswitches
  | enable f k => exact h.enable hpc hcomm hinv hmoves
  | fill f k time =>
      simp only [Comm.run, hpc, Option.some.injEq] at hold
      rw [← hold] at hinv ⊢
      rw [hpc] at hmoves
      obtain ⟨hs, hmay⟩ := hmoves.quiet_eq (by simp) rfl
      rw [hs]
      exact h.moves hinv hmay rfl rfl rfl rfl (by rw [hpc]; exact fun hat => hat)
        (Or.inl rfl) rfl
  | insert f k desc =>
      simp only [Comm.run, hpc] at hold
      obtain ⟨r, -, ht⟩ := Option.map_eq_some_iff.mp hold
      rw [← ht] at hinv ⊢
      rw [hpc] at hmoves
      obtain ⟨hs, hmay⟩ := hmoves.quiet_eq (by simp) rfl
      rw [hs]
      have hstage : (Comm.enabled f k : Pc N Chan).stage = .enabling := by
        unfold Comm.enabled
        split <;> rfl
      obtain ⟨hat, habout, hprepared⟩ := Pc.at_enabling hstage
      refine h.moves hinv hmay rfl rfl rfl rfl ?_ habout hprepared
      rw [hpc]
      exact (hat _).mpr
  | shouldWait f => exact h.shouldWait hpc hcomm hinv hmoves hswitches
  | altWait f => exact h.altWait hpc hcomm hinv hmoves hswitches
  | disable f k sel | remove f k sel time | release f k sel desc =>
      exact h.disables (by rw [hpc]; rfl) (by simp [hpc]) hcomm hinv hmoves
  | finish f sel => exact h.finish hpc hcomm hinv hmoves hswitches
  | selected f sel =>
      simp only [Comm.run, hpc, Option.some.injEq] at hold
      rw [← hold] at hinv ⊢
      rw [hpc] at hmoves
      obtain ⟨hs, hmay⟩ := hmoves.quiet_eq (by simp) rfl
      rw [hs]
      refine h.moves hinv hmay rfl rfl rfl rfl ?_ (by simp [Pc.About]) rfl
      rw [hpc]
      intro hat
      have hcode : (m.sched.live p).code = .own := hat
      rw [hcode]
      rfl

/-- A step of a handler. -/
theorem Joined.handles (h : Joined net sys m) (htally : s.Tally sys) (hinv : Comm.Inv net t)
    (hsame : ∀ x, Sched.Stands m.sched s x) (hsched : s.sched_state = m.sched.sched_state)
    (hpc : t.pc = m.comm.pc) (hstate : t.sched_state = m.comm.sched_state)
    (halt : s.alt_state = t.alt_state) (hsettled : ∀ π r now, t.handler π ≠ .enqueue r now) :
    Joined net sys ⟨s, t⟩ where
  tally := htally
  inv := hinv
  alt_state := halt
  place x := by
    obtain ⟨hcode, hop⟩ := hsame x
    rw [hpc, hcode, hop]
    exact h.place x
  sched_state x hx := by
    change (t.pc x).prepared = true at hx
    rw [hpc] at hx
    change s.sched_state x = t.sched_state x
    rw [hsched, hstate]
    exact h.sched_state x hx
  settled := hsettled

/-- The handler of one processor goes on, and is not about to enqueue anybody. -/
theorem Joined.handler_settled (h : Joined net sys m) {π : Fin U} {at' : HandlerPc N}
    (hhandler : t.handler = Function.update m.comm.handler π at')
    (hne : ∀ r now, at' ≠ .enqueue r now) (ρ : Fin U) (r : Fin N) (now : Int) :
    t.handler ρ ≠ .enqueue r now := by
  rw [hhandler]
  by_cases hρ : ρ = π
  · rw [hρ, Function.update_self]
    exact hne r now
  · rw [Function.update_of_ne hρ]
    exact h.settled ρ r now

/-- A step of a handler, as the scheduler has it. -/
theorem Joined.handles_act (h : Joined net sys m) (hstep : m.sched.step sys act = some s)
    (hactor : act.actor = none) (hmarks : act.marks = none) (hinv : Comm.Inv net t)
    (hpc : t.pc = m.comm.pc) (hstate : t.sched_state = m.comm.sched_state)
    (halt : s.alt_state = t.alt_state) (hsettled : ∀ π r now, t.handler π ≠ .enqueue r now) :
    Joined net sys ⟨s, t⟩ := by
  refine h.handles (h.tally.step hstep) hinv ?_ ?_ hpc hstate halt hsettled
  · intro x
    apply h.tally.settled.others hstep
    · rw [hactor]
      simp
    · intro p heq
      rw [heq] at hactor
      cases hactor
  · funext x
    apply Sched.step_marks hstep
    rw [hmarks]
    simp

/-- The loop of the timeout handler ends for the scheduler. -/
theorem timeout_ends {π : Fin U} {u : Sched N U} (hin : s.Inside π .timeout)
    (hstep : s.step sys (.handle π) = some u) : u.alt_state = s.alt_state := by
  cases Sched.step_cases hstep with
  | handle hinside hhandle =>
      obtain rfl := Option.some.inj (hin.symm.trans hinside)
      obtain rfl := Option.some.inj hhandle
      rfl

/-- The head of the loop of `handle_timeout_interrupt`. -/
theorem Joined.handle_loop (h : Joined net sys m) {π : Fin U} {now : Int}
    (hpc : m.comm.handler π = .loop now) (hcomm : m.comm.handle π = some t)
    (hs : m.sched.Inside π .timeout ∧ m.sched.step sys (.handle π) = some s ∨ s = m.sched) :
    Joined net sys ⟨s, t⟩ := by
  have hinv := h.inv.handle hcomm
  obtain ⟨hpc', hnext, hne, halt, hstate, hmoved⟩ : ∃ pc',
      t.handler = Function.update m.comm.handler π pc' ∧ (∀ r now, pc' ≠ .enqueue r now) ∧
      t.alt_state = m.comm.alt_state ∧ t.sched_state = m.comm.sched_state ∧
      t.pc = m.comm.pc := by
    simp only [Comm.handle, hpc, Option.some.injEq] at hcomm
    split at hcomm
    next =>
      subst hcomm
      exact ⟨_, rfl, by simp, rfl, rfl, rfl⟩
    next head hhead =>
      split at hcomm
      next =>
        rw [h.inv.alting head] at hcomm
        subst hcomm
        exact ⟨_, rfl, by simp, rfl, rfl, rfl⟩
      next =>
        subst hcomm
        exact ⟨_, rfl, by simp, rfl, rfl, rfl⟩
  have hsettled := h.handler_settled hnext hne
  obtain ⟨hin, hstep⟩ | rfl := hs
  · refine h.handles_act hstep rfl rfl hinv hmoved hstate ?_ hsettled
    rw [timeout_ends hin hstep, halt]
    exact h.alt_state
  · exact h.handles h.tally hinv (fun x => Sched.Stands.refl _ x) rfl hmoved hstate
      (h.alt_state.trans halt.symm) hsettled

/-- The first attempt of `maybeFreeAltingProcess`. -/
theorem Joined.handle_free (h : Joined net sys m) {π : Fin U} {x : Expired N} {now : Int}
    (hpc : m.comm.handler π = .free x now) (hcomm : m.comm.handle π = some t)
    (hstep : m.sched.step sys (.freeAlting π x.proc) = some s) : Joined net sys ⟨s, t⟩ := by
  have hinv := h.inv.handle hcomm
  have hagree := congrFun h.alt_state x.proc
  cases Sched.step_cases hstep with
  | freeAlting hpun hinside =>
      simp only [Comm.handle, hpc, Option.some.injEq] at hcomm
      unfold Sched.freeAlting at hstep ⊢
      rw [hagree] at hstep ⊢
      cases halt : m.comm.alt_state x.proc with
      | enabling =>
          rw [halt] at hcomm hstep
          subst hcomm
          refine h.handles_act hstep rfl rfl hinv rfl rfl ?_ (h.handler_settled rfl (by simp))
          simp [Sched.altReady, Comm.handlerGoto, Comm.processed, h.alt_state]
      | waiting =>
          rw [halt] at hcomm hstep
          subst hcomm
          exact h.handles_act hstep rfl rfl hinv rfl rfl h.alt_state
            (h.handler_settled rfl (by simp))
      | none | ready =>
          rw [halt] at hcomm hstep
          subst hcomm
          exact h.handles_act hstep rfl rfl hinv rfl rfl h.alt_state
            (h.handler_settled rfl (by simp))

/-- The second attempt of `maybeFreeAltingProcess`, and what follows it. -/
theorem Joined.handle_freeWaiting (h : Joined net sys m) {π : Fin U} {x : Expired N} {now : Int}
    (hpc : m.comm.handler π = .freeWaiting x now) (hcomm : m.comm.handle π = some t)
    (hin : m.sched.Inside π (.freeWaiting x.proc))
    (hstep : m.sched.step sys (.handle π) = some s) :
    m.comm.alt_state x.proc = .waiting ∧ t.handler π = .enqueue x.proc now ∧
        (∀ u, t.handle π = some u → Joined net sys ⟨s, u⟩) ∨
      m.comm.alt_state x.proc ≠ .waiting ∧ t.handler π = .loop now ∧ Joined net sys ⟨s, t⟩ := by
  have hinv := h.inv.handle hcomm
  have hagree := congrFun h.alt_state x.proc
  have hs : s.alt_state = if m.comm.alt_state x.proc = .waiting then
      Function.update m.sched.alt_state x.proc .ready else m.sched.alt_state := by
    cases Sched.step_cases hstep with
    | handle hinside hhandle =>
        obtain rfl := Option.some.inj (hin.symm.trans hinside)
        simp only [Sched.handle] at hhandle
        have hsame : (m.sched.handling (m.sched.current π) (some .timeout)).alt_state =
            m.sched.alt_state := rfl
        rw [hsame, hagree] at hhandle
        split at hhandle
        next halt =>
          rw [(Sched.enqueue0_rests hhandle).alt_state, if_pos halt]
          rfl
        next halt =>
          obtain rfl := Option.some.inj hhandle
          rw [if_neg halt]
          rfl
  simp only [Comm.handle, hpc, Option.some.injEq] at hcomm
  by_cases halt : m.comm.alt_state x.proc = .waiting
  · left
    rw [if_pos halt] at hcomm hs
    subst hcomm
    refine ⟨halt, by simp [Comm.handlerGoto], ?_⟩
    intro u hu
    have hinv' := hinv.handle hu
    simp only [Comm.handle, Comm.handlerGoto, Function.update_self, Option.some.injEq] at hu
    subst hu
    refine h.handles_act hstep rfl rfl hinv' rfl rfl ?_ ?_
    · rw [hs, h.alt_state]
      rfl
    · refine h.handler_settled (?_ : _ = Function.update m.comm.handler π (.loop now)) (by simp)
      exact Function.update_idem ..
  · right
    rw [if_neg halt] at hcomm hs
    subst hcomm
    refine ⟨halt, by simp [Comm.handlerGoto], ?_⟩
    refine h.handles_act hstep rfl rfl hinv rfl rfl ?_ (h.handler_settled rfl (by simp))
    rw [hs, h.alt_state]
    rfl

/-- **Every step of the timeout handler** is one of `Comm`, or two, and keeps the two
joined. -/
theorem Joined.handle (h : Joined net sys m) {π : Fin U} (hstep : m.handle sys π = some n) :
    exec (Comm.step net sys.pun) m.comm (m.obs (.comm (.handle π))) = some n.comm ∧
      Joined net sys n := by
  obtain ⟨t, hcomm, hstep⟩ := Option.bind_eq_some_iff.mp hstep
  have hone : exec (Comm.step net sys.pun) m.comm [.handle π] = some t := by
    simp [exec, Comm.step, hcomm]
  cases hpc : m.comm.handler π with
  | loop now =>
      simp only [hpc] at hstep
      have hobs : m.obs (.comm (.handle π)) = [.handle π] := by simp [obs, hpc]
      rw [hobs]
      split at hstep
      next =>
        obtain ⟨hin, hstep⟩ := Option.ite_none_right_eq_some.mp hstep
        obtain ⟨s, hs, rfl⟩ := Option.map_eq_some_iff.mp hstep
        exact ⟨hone, h.handle_loop hpc hcomm (Or.inl ⟨hin, hs⟩)⟩
      next =>
        obtain ⟨hin, hn⟩ := Option.ite_none_right_eq_some.mp hstep
        obtain rfl := Option.some.inj hn
        exact ⟨hone, h.handle_loop hpc hcomm (Or.inr rfl)⟩
  | free x now =>
      simp only [hpc] at hstep
      have hobs : m.obs (.comm (.handle π)) = [.handle π] := by simp [obs, hpc]
      rw [hobs]
      obtain ⟨s, hs, rfl⟩ := Option.map_eq_some_iff.mp hstep
      exact ⟨hone, h.handle_free hpc hcomm hs⟩
  | freeWaiting x now =>
      simp only [hpc] at hstep
      obtain ⟨hin, hstep⟩ := Option.ite_none_right_eq_some.mp hstep
      obtain ⟨s, hs, hstep⟩ := Option.bind_eq_some_iff.mp hstep
      obtain ⟨halt, hnext, hjoined⟩ | ⟨halt, hnext, hjoined⟩ :=
        h.handle_freeWaiting hpc hcomm hin hs
      · simp only [hnext] at hstep
        obtain ⟨u, hu, rfl⟩ := Option.map_eq_some_iff.mp hstep
        have hobs : m.obs (.comm (.handle π)) = [.handle π, .handle π] := by
          simp [obs, hpc, halt]
        rw [hobs]
        exact ⟨by simp [exec, Comm.step, hcomm, hu], hjoined u hu⟩
      · simp only [hnext, Option.some.injEq] at hstep
        subst hstep
        have hobs : m.obs (.comm (.handle π)) = [.handle π] := by simp [obs, hpc, halt]
        rw [hobs]
        exact ⟨hone, hjoined⟩
  | idle | enqueue r now =>
      simp only [hpc] at hstep
      cases hstep

/-- A call begins, or time passes. -/
theorem Joined.begins (h : Joined net sys m) {c : Chan} {e : End}
    (hmay : m.sched.May sys (net.role c e) (· = .own)) (hinv : Comm.Inv net t)
    (hpc : t.pc = Function.update m.comm.pc (net.role c e) (.call e c))
    (hhandler : t.handler = m.comm.handler) (halt : t.alt_state = m.comm.alt_state)
    (hstate : t.sched_state = m.comm.sched_state) : Joined net sys ⟨m.sched, t⟩ := by
  have hcode := hmay.code_eq
  refine h.moves hinv ⟨hmay.1, hmay.2.1, rfl, hmay.2.2.2⟩ hpc hhandler halt hstate ?_
    (Or.inl rfl) rfl
  intro _
  rw [hcode]
  rfl

/-- **Every step is one that `Comm` can take, or none for it, and keeps the two joined.** -/
theorem Joined.step (h : Joined net sys m) {act : TrafficAct N U Chan Msg}
    (hstep : m.step net sys act = some n) :
    exec (Comm.step net sys.pun) m.comm (m.obs act) = some n.comm ∧ Joined net sys n := by
  cases act with
  | sched act =>
      obtain ⟨hadm, hstep⟩ := Option.ite_none_right_eq_some.mp hstep
      obtain ⟨s, hs, rfl⟩ := Option.map_eq_some_iff.mp hstep
      exact ⟨rfl, h.passes hadm hs⟩
  | comm act =>
      have hone : ∀ t, m.comm.step net sys.pun act = some t →
          exec (Comm.step net sys.pun) m.comm [act] = some t := by
        intro t ht
        simp [exec, ht]
      cases act with
      | «in» c =>
          obtain ⟨hmay, hstep⟩ := Option.ite_none_right_eq_some.mp hstep
          obtain ⟨t, ht, rfl⟩ := Option.map_eq_some_iff.mp hstep
          refine ⟨hone t ht, ?_⟩
          have hinv := h.inv.step ht
          cases Comm.step_cases ht with
          | «in» hidle => exact h.begins hmay hinv rfl rfl rfl rfl
      | out c msg =>
          obtain ⟨hmay, hstep⟩ := Option.ite_none_right_eq_some.mp hstep
          obtain ⟨t, ht, rfl⟩ := Option.map_eq_some_iff.mp hstep
          refine ⟨hone t ht, ?_⟩
          have hinv := h.inv.step ht
          cases Comm.step_cases ht with
          | out hidle => exact h.begins hmay hinv rfl rfl rfl rfl
      | select p f =>
          obtain ⟨s, hs, hstep⟩ := Option.bind_eq_some_iff.mp hstep
          obtain ⟨t, ht, rfl⟩ := Option.map_eq_some_iff.mp hstep
          refine ⟨hone t ht, ?_⟩
          have hinv := h.inv.step ht
          cases Sched.step_cases hs with
          | select hmay =>
              cases Comm.step_cases ht with
              | select hidle hguards =>
                  refine h.acts hinv hs rfl (by simp) rfl rfl ?_ ?_ (by simp [Pc.prepared]) ?_
                  · simp [Sched.goto, Comm.goto, h.alt_state]
                  · simp [Sched.goto, Pc.At, Pc.About, hmay.2.1]
                  · exact fun x _ => Or.inl ⟨rfl, rfl⟩
      | run p =>
          obtain ⟨hcomm, hn⟩ := h.run hstep
          exact ⟨hone _ hcomm, hn⟩
      | tick δ =>
          change (m.comm.step net sys.pun (.tick δ)).map _ = some n at hstep
          obtain ⟨t, ht, rfl⟩ := Option.map_eq_some_iff.mp hstep
          refine ⟨hone t ht, ?_⟩
          have hinv := h.inv.step ht
          cases Comm.step_cases ht with
          | tick =>
              exact h.handles h.tally hinv (fun x => Sched.Stands.refl _ x) rfl rfl rfl
                h.alt_state h.settled
      | interrupt π =>
          obtain ⟨s, hs, hstep⟩ := Option.bind_eq_some_iff.mp hstep
          obtain ⟨t, ht, rfl⟩ := Option.map_eq_some_iff.mp hstep
          refine ⟨hone t ht, ?_⟩
          have hinv := h.inv.step ht
          cases Sched.step_cases hs with
          | interrupt hinside henabled =>
              cases Comm.step_cases ht with
              | interrupt hidle =>
                  exact h.handles_act hs rfl rfl hinv rfl rfl h.alt_state
                    (h.handler_settled rfl (by simp))
      | handle π => exact h.handle hstep

end Calls

section Results

variable {net : Net N Chan} {sys : Procs N U} {m : Traffic N U Chan Msg}

theorem joined_init (net : Net N Chan) (sys : Procs N U) (proc : Fin N) (msg : Msg) :
    Joined net sys (init sys Chan proc msg) where
  tally := Sched.tally_init sys
  inv := Comm.inv_init proc msg
  alt_state := rfl
  place p := by
    constructor
    · change (if _ then Code.own else Code.unborn).alts = false
      split <;> rfl
    · intro q
      simp [init, Sched.init]
  sched_state p hp := by cases hp
  settled π r now := by simp [init, Comm.init]

end Results

end Traffic

/-- The first of the pair of children reads what the second one writes. -/
def childrenChannel : Net 4 Unit where
  role := fun _ e => match e with
    | .input => 2
    | .output => 3
  distinct := by decide

end Cxp
