import Cxp.ChannelGuarantees

/-!
# What a select returns

A select returns the index of a ready guard as long as nobody wakes it for
anything but one of its own guards (`selects_return_ready`).

* A ready guard stays ready until the process itself does something about it:
  a registered writer waits, and time goes on (`ready_kept`).
* So a process that is woken for a guard, or finds one in the enabling loop,
  still finds it in the disabling loop (`Selecting`).
* A writer that has registered itself at a channel of an alternation tells its
  process outside the critical section, and may do so when that process has
  taken the message and is in its next select, where it wakes it for **no**
  guard, and the select returns -1 (`select_returns_none`).
-/

namespace Cxp

open Meeting Run Timers

variable {N U : Nat} {Chan Msg : Type}

/-- The index of the guard looked at. -/
theorem Select.guard_index {f : Select Chan} {k : Nat} {g : Guard Chan}
    (h : f.guard k = some g) : k < f.size ∧ f.guards[f.index k]? = some g := by
  unfold guard at h
  split at h
  · exact ⟨‹_›, h⟩
  · cases h

/-- The earliest timeout is that of a guard. -/
theorem Select.earliest_mem {f : Select Chan} (h : f.earliest ≠ Select.NO_TIME) :
    Guard.timer f.earliest ∈ f.guards := by
  have hfold : ∀ choose : Int → Guard Chan → Int,
      (∀ time guard, choose time guard = time ∨ guard = .timer (choose time guard)) →
      ∀ (guards : List (Guard Chan)) (time : Int), guards.foldl choose time = time ∨
        Guard.timer (guards.foldl choose time) ∈ guards := by
    intro choose hchoose guards
    induction guards with
    | nil => exact fun _ => Or.inl rfl
    | cons g gs ih =>
        intro time
        rw [List.foldl_cons]
        obtain heq | hmem := ih (choose time g)
        · rw [heq]
          obtain hsame | htimer := hchoose time g
          · exact Or.inl hsame
          · right
            rw [← htimer]
            exact List.mem_cons_self
        · exact Or.inr (List.mem_cons_of_mem _ hmem)
  have hearliest : f.earliest = Select.NO_TIME ∨ Guard.timer f.earliest ∈ f.guards := by
    apply hfold
    intro time guard
    cases guard with
    | timer t =>
        dsimp only
        split
        · exact Or.inr rfl
        · exact Or.inl rfl
    | _ => exact Or.inl rfl
  exact hearliest.resolve_left h

variable [DecidableEq Chan]

/-- The guard is ready: a writer is registered on the channel, or the time has
come, or it is a skip guard. -/
def Guard.Ready (net : Net N Chan) (s : Comm N U Chan Msg) : Guard Chan → Prop
  | .chan c => s.waiting c = some (net.role c .output)
  | .skip => True
  | .timer time => time ≤ s.clock

namespace Comm

/-- A select that returns, returns the index of a ready guard. -/
def Returns (net : Net N Chan) (s : Comm N U Chan Msg) : Prop :=
  ∀ r f sel, s.pc r = .selected f sel →
    ∃ i g, sel = some i ∧ i < f.size ∧ f.guards[i]? = some g ∧ g.Ready net s

/-- Who wakes a process in the enabling loop, or behind it, does it for a guard
of the select that the process is in: a writer is registered at a channel of a
guard, a timeout is the time of one. -/
def WakesForGuard (s : Comm N U Chan Msg) :
    CommAct N U Chan Msg → Prop
  | .run p => ∀ c r,
      (s.pc p = .free c r ∧ s.alt_state r = .enabling) ∨
        (s.pc p = .freeWaiting c r ∧ s.alt_state r = .waiting) →
      ∀ f k, (s.pc r).guards = some (f, k) → (s.pc r).stage ≠ .disabling →
        .chan c ∈ f.guards ∧ s.waiting c = some p
  | .handle π => ∀ x now,
      (s.handler π = .free x now ∧ s.alt_state x.proc = .enabling) ∨
        (s.handler π = .freeWaiting x now ∧ s.alt_state x.proc = .waiting) →
      ∀ f k, (s.pc x.proc).guards = some (f, k) → (s.pc x.proc).stage ≠ .disabling →
        .timer x.time ∈ f.guards
  | _ => True

/-- A ready guard was found already, or is still to be found among the first
`k` guards looked at. -/
def Found (net : Net N Chan) (s : Comm N U Chan Msg) (f : Select Chan) (k : Nat) :
    Option Nat → Prop
  | some i => ∃ g, f.guards[i]? = some g ∧ g.Ready net s
  | none => ∃ j g, j < k ∧ f.guard j = some g ∧ g.Ready net s

/-- What a select knows about its guards. -/
def Selecting (net : Net N Chan) (s : Comm N U Chan Msg) (r : Fin N) : Prop :=
  match s.pc r with
  | .enable f _ | .fill f _ _ | .insert f _ _ | .shouldWait f | .altWait f =>
      s.alt_state r = .ready → ∃ g ∈ f.guards, g.Ready net s
  | .disable f k sel | .remove f k sel _ | .release f k sel _ => Found net s f k sel
  | .finish f sel => Found net s f 0 sel
  | .selected f sel => f.guards.all (·.readBy net r) = true ∧ Found net s f 0 sel
  | _ => True

/-- The time of a handler is not in the future, nor is a timeout it has taken
off. -/
structure Timely (s : Comm N U Chan Msg) : Prop where
  loop : ∀ π now, s.handler π = .loop now → now ≤ s.clock
  expired : ∀ π x now, s.handler π = .free x now ∨ s.handler π = .freeWaiting x now →
    x.time ≤ s.clock ∧ now ≤ s.clock
  enqueue : ∀ π r now, s.handler π = .enqueue r now → now ≤ s.clock

variable {net : Net N Chan} {s t : Comm N U Chan Msg} {p r : Fin N} {pun : Fin N → Fin U}

/-- What a process's own step leaves as it was: the clock, the handlers, where
the other processes stand, their `alt_state` but for an exchange that succeeds,
and who waits on a channel that the process neither calls nor disables and that
is not free. -/
structure Leaves (s t : Comm N U Chan Msg) (p : Fin N) : Prop where
  clock : t.clock = s.clock
  handler : t.handler = s.handler
  pc : ∀ r, r ≠ p → t.pc r = s.pc r
  alt : ∀ r, r ≠ p → t.alt_state r = s.alt_state r ∨
    ∃ c, (s.pc p = .free c r ∧ s.alt_state r = .enabling) ∨
      (s.pc p = .freeWaiting c r ∧ s.alt_state r = .waiting)
  waiting : ∀ c, t.waiting c = s.waiting c ∨ s.waiting c = none ∨
    (∃ e, s.pc p = .call e c) ∨
    ∃ f k sel, s.pc p = .disable f (k + 1) sel ∧ f.guard k = some (.chan c) ∧
      s.waiting c = some p

omit [DecidableEq Chan] in
theorem leaves_goto {pc' : Pc N Chan} (hclock : t.clock = s.clock) (hhandler : t.handler = s.handler)
    (hpc : t.pc = s.pc) (halt : ∀ r, r ≠ p → t.alt_state r = s.alt_state r)
    (hwaiting : ∀ c, t.waiting c = s.waiting c ∨ s.waiting c = none ∨
      (∃ e, s.pc p = .call e c) ∨
      ∃ f k sel, s.pc p = .disable f (k + 1) sel ∧ f.guard k = some (.chan c) ∧
        s.waiting c = some p) : Leaves s (t.goto p pc') p :=
  ⟨hclock, hhandler, fun r hr => by simp [goto, hpc, hr], fun r hr => Or.inl (halt r hr),
    hwaiting⟩

omit [DecidableEq Chan] in
/-- A step that leaves who waits, and every `alt_state`, as it was. -/
theorem leaves_here {pc' : Pc N Chan} (hclock : t.clock = s.clock) (hhandler : t.handler = s.handler)
    (hpc : t.pc = s.pc) (halt : t.alt_state = s.alt_state)
    (hwaiting : t.waiting = s.waiting) : Leaves s (t.goto p pc') p := by
  apply leaves_goto hclock hhandler hpc
  · intro r _
    rw [halt]
  · intro c
    left
    rw [hwaiting]

theorem leaves_ret {e : End} {c : Chan} (hclock : t.clock = s.clock) (hhandler : t.handler = s.handler)
    (hpc : t.pc = s.pc) (halt : t.alt_state = s.alt_state)
    (hwaiting : t.waiting = s.waiting) : Leaves s (t.ret p e c) p := by
  have h : Leaves s (t.goto p .idle) p := leaves_here hclock hhandler hpc halt hwaiting
  cases e <;> exact ⟨h.clock, h.handler, h.pc, h.alt, h.waiting⟩

omit [DecidableEq Chan] in
/-- Who waits on a channel may change in a call on it only. -/
theorem waiting_call {e : End} {c : Chan} (hpc : s.pc p = .call e c)
    (hw : ∀ d, d ≠ c → t.waiting d = s.waiting d) (d : Chan) :
    t.waiting d = s.waiting d ∨ s.waiting d = none ∨ (∃ e, s.pc p = .call e d) ∨
      ∃ f k sel, s.pc p = .disable f (k + 1) sel ∧ f.guard k = some (.chan d) ∧
        s.waiting d = some p := by
  by_cases hd : d = c
  · exact Or.inr (Or.inr (Or.inl ⟨e, hd ▸ hpc⟩))
  · exact Or.inl (hw d hd)

theorem leaves_run (hstep : s.run pun p = some t) : Leaves s t p := by
  cases hpc : s.pc p with
  | idle => simp [Comm.run, hpc] at hstep
  | call e c =>
      cases e with
      | input =>
          simp only [Comm.run, hpc, Comm.in] at hstep
          split at hstep
          next w hw =>
            obtain ⟨src, _, rfl⟩ := Option.map_eq_some_iff.mp hstep
            exact leaves_goto rfl rfl rfl (fun _ _ => rfl)
              (waiting_call hpc fun d hd => Function.update_of_ne hd _ _)
          next =>
            obtain rfl := Option.some.inj hstep
            exact leaves_goto rfl rfl rfl (fun _ _ => rfl)
              (waiting_call hpc fun d hd => Function.update_of_ne hd _ _)
      | output =>
          simp only [Comm.run, hpc, Comm.out, Option.some.injEq] at hstep
          subst hstep
          split
          next =>
            split <;>
              exact leaves_goto rfl rfl rfl (fun _ _ => rfl)
                (waiting_call hpc fun d hd => Function.update_of_ne hd _ _)
          next =>
            exact leaves_goto rfl rfl rfl (fun _ _ => rfl)
              (waiting_call hpc fun d hd => Function.update_of_ne hd _ _)
  | wake e c q =>
      simp only [Comm.run, hpc, Option.some.injEq] at hstep
      subst hstep
      split
      next => exact leaves_here rfl rfl rfl rfl rfl
      next => exact leaves_ret rfl rfl rfl rfl rfl
  | schedule e c q =>
      simp only [Comm.run, hpc, Option.some.injEq] at hstep
      subst hstep
      exact leaves_ret rfl rfl rfl rfl rfl
  | free c q =>
      simp only [Comm.run, hpc, Option.some.injEq] at hstep
      subst hstep
      split
      next he =>
        refine ⟨rfl, rfl, fun r hr => Function.update_of_ne hr _ _, fun r hr => ?_,
          fun _ => Or.inl rfl⟩
        by_cases hq : r = q
        · exact Or.inr ⟨c, Or.inl ⟨hq ▸ hpc, hq ▸ he⟩⟩
        · exact Or.inl (Function.update_of_ne hq _ _)
      next => exact leaves_here rfl rfl rfl rfl rfl
      next => exact leaves_here rfl rfl rfl rfl rfl
  | freeWaiting c q =>
      simp only [Comm.run, hpc, Option.some.injEq] at hstep
      subst hstep
      split
      next hw =>
        refine ⟨rfl, rfl, fun r hr => Function.update_of_ne hr _ _, fun r hr => ?_,
          fun _ => Or.inl rfl⟩
        by_cases hq : r = q
        · exact Or.inr ⟨c, Or.inr ⟨hq ▸ hpc, hq ▸ hw⟩⟩
        · exact Or.inl (Function.update_of_ne hq _ _)
      next => exact leaves_here rfl rfl rfl rfl rfl
  | freeSchedule c q =>
      simp only [Comm.run, hpc, Option.some.injEq] at hstep
      subst hstep
      exact leaves_here rfl rfl rfl rfl rfl
  | relinquish e c =>
      simp only [Comm.run, hpc, Option.some.injEq] at hstep
      subst hstep
      split
      next => exact leaves_here rfl rfl rfl rfl rfl
      next => exact leaves_ret rfl rfl rfl rfl rfl
  | wait e c =>
      simp only [Comm.run, hpc] at hstep
      split at hstep
      next => exact Option.some.inj hstep ▸ leaves_ret rfl rfl rfl rfl rfl
      next => cases hstep
  | enable f k =>
      simp only [Comm.run, hpc, Option.some.injEq] at hstep
      subst hstep
      unfold Comm.enable enable_channel
      split
      next c _ =>
        split
        next => exact leaves_here rfl rfl rfl rfl rfl
        next hnone =>
          refine leaves_goto rfl rfl rfl (fun _ _ => rfl) fun d => ?_
          by_cases hd : d = c
          · exact Or.inr (Or.inl (hd ▸ hnone))
          · exact Or.inl (Function.update_of_ne hd _ _)
      all_goals exact leaves_here rfl rfl rfl rfl rfl
  | fill f k time =>
      simp only [Comm.run, hpc, Option.some.injEq] at hstep
      subst hstep
      exact leaves_here rfl rfl rfl rfl rfl
  | insert f k desc =>
      simp only [Comm.run, hpc] at hstep
      obtain ⟨x, _, rfl⟩ := Option.map_eq_some_iff.mp hstep
      exact leaves_here rfl rfl rfl rfl rfl
  | shouldWait f =>
      simp only [Comm.run, hpc, Option.some.injEq] at hstep
      subst hstep
      split
      next =>
        exact leaves_goto rfl rfl rfl (fun r hr => Function.update_of_ne hr _ _)
          fun _ => Or.inl rfl
      next => exact leaves_here rfl rfl rfl rfl rfl
  | altWait f =>
      simp only [Comm.run, hpc] at hstep
      split at hstep
      next => exact Option.some.inj hstep ▸ leaves_here rfl rfl rfl rfl rfl
      next => cases hstep
  | disable f k sel =>
      simp only [Comm.run, hpc] at hstep
      cases k with
      | zero =>
          obtain rfl := Option.some.inj hstep
          exact leaves_here rfl rfl rfl rfl rfl
      | succ k =>
          simp only [Comm.disable, disable_channel] at hstep
          split at hstep
          next c hguard =>
            obtain rfl := Option.some.inj hstep
            split
            next => exact leaves_here rfl rfl rfl rfl rfl
            next hready =>
              refine leaves_goto rfl rfl rfl (fun _ _ => rfl) fun d => ?_
              by_cases hd : d = c
              · subst hd
                by_cases hnone : s.waiting d = none
                · exact Or.inr (Or.inl hnone)
                · refine Or.inr (Or.inr (Or.inr ⟨f, k, sel, hpc, hguard, ?_⟩))
                  by_contra hne
                  exact hready ⟨hnone, hne⟩
              · exact Or.inl (Function.update_of_ne hd _ _)
          next =>
            obtain rfl := Option.some.inj hstep
            exact leaves_here rfl rfl rfl rfl rfl
          next =>
            obtain rfl := Option.some.inj hstep
            exact leaves_here rfl rfl rfl rfl rfl
          next => cases hstep
  | remove f k sel time =>
      simp only [Comm.run, hpc] at hstep
      obtain ⟨x, _, rfl⟩ := Option.map_eq_some_iff.mp hstep
      exact leaves_here rfl rfl rfl rfl rfl
  | release f k sel desc =>
      simp only [Comm.run, hpc, Option.some.injEq] at hstep
      subst hstep
      exact leaves_here rfl rfl rfl rfl rfl
  | finish f sel =>
      simp only [Comm.run, hpc, Option.some.injEq] at hstep
      subst hstep
      exact leaves_goto rfl rfl rfl (fun r hr => Function.update_of_ne hr _ _)
        fun _ => Or.inl rfl
  | selected f sel =>
      simp only [Comm.run, hpc, Option.some.injEq] at hstep
      subst hstep
      exact leaves_here rfl rfl rfl rfl rfl

omit [DecidableEq Chan] in
/-- What a handler's step leaves as it was. -/
theorem leaves_handle {π : Fin U} (hstep : s.handle π = some t) :
    t.pc = s.pc ∧ t.waiting = s.waiting ∧ t.clock = s.clock ∧
      ∀ r, t.alt_state r = s.alt_state r ∨ ∃ x now, x.proc = r ∧
        ((s.handler π = .free x now ∧ s.alt_state r = .enabling) ∨
          (s.handler π = .freeWaiting x now ∧ s.alt_state r = .waiting)) := by
  cases hpc : s.handler π with
  | idle => simp [Comm.handle, hpc] at hstep
  | loop now =>
      simp only [Comm.handle, hpc, Option.some.injEq] at hstep
      subst hstep
      split
      next => exact ⟨rfl, rfl, rfl, fun _ => Or.inl rfl⟩
      next =>
        split
        next => split <;> exact ⟨rfl, rfl, rfl, fun _ => Or.inl rfl⟩
        next => exact ⟨rfl, rfl, rfl, fun _ => Or.inl rfl⟩
  | free x now =>
      simp only [Comm.handle, hpc, Option.some.injEq] at hstep
      subst hstep
      split
      next he =>
        refine ⟨rfl, rfl, rfl, fun r => ?_⟩
        by_cases hr : r = x.proc
        · exact Or.inr ⟨x, now, hr.symm, Or.inl ⟨rfl, hr ▸ he⟩⟩
        · exact Or.inl (Function.update_of_ne hr _ _)
      next => exact ⟨rfl, rfl, rfl, fun _ => Or.inl rfl⟩
      next => exact ⟨rfl, rfl, rfl, fun _ => Or.inl rfl⟩
  | freeWaiting x now =>
      simp only [Comm.handle, hpc, Option.some.injEq] at hstep
      subst hstep
      split
      next hw =>
        refine ⟨rfl, rfl, rfl, fun r => ?_⟩
        by_cases hr : r = x.proc
        · exact Or.inr ⟨x, now, hr.symm, Or.inr ⟨rfl, hr ▸ hw⟩⟩
        · exact Or.inl (Function.update_of_ne hr _ _)
      next => exact ⟨rfl, rfl, rfl, fun _ => Or.inl rfl⟩
  | enqueue q now =>
      simp only [Comm.handle, hpc, Option.some.injEq] at hstep
      subst hstep
      exact ⟨rfl, rfl, rfl, fun _ => Or.inl rfl⟩

/-- The process whose own step it is. -/
def actor (net : Net N Chan) : CommAct N U Chan Msg → Option (Fin N)
  | .in c => some (net.role c .input)
  | .out c _ => some (net.role c .output)
  | .select p _ => some p
  | .run p => some p
  | _ => none

/-- An exchange that makes process `r` Ready is about to succeed. -/
def Wins (s : Comm N U Chan Msg) (r : Fin N) : CommAct N U Chan Msg → Prop
  | .run p => ∃ c, (s.pc p = .free c r ∧ s.alt_state r = .enabling) ∨
      (s.pc p = .freeWaiting c r ∧ s.alt_state r = .waiting)
  | .handle π => ∃ x now, x.proc = r ∧
      ((s.handler π = .free x now ∧ s.alt_state r = .enabling) ∨
        (s.handler π = .freeWaiting x now ∧ s.alt_state r = .waiting))
  | _ => False

variable {act : CommAct N U Chan Msg}

/-- A process that does not act itself. -/
theorem others_leave (hstep : s.step net pun act = some t) (hr : actor net act ≠ some r) :
    t.pc r = s.pc r ∧ (t.alt_state r = s.alt_state r ∨ Wins s r act) := by
  have hne : ∀ p, actor net act = some p → r ≠ p := by
    intro p hp heq
    exact hr (heq ▸ hp)
  cases step_cases hstep with
  | «in» hidle => exact ⟨Function.update_of_ne (hne _ rfl) _ _, Or.inl rfl⟩
  | out hidle => exact ⟨Function.update_of_ne (hne _ rfl) _ _, Or.inl rfl⟩
  | select hidle hguards =>
      exact ⟨Function.update_of_ne (hne _ rfl) _ _, Or.inl (Function.update_of_ne (hne _ rfl) _ _)⟩
  | run hrun =>
      have hl := leaves_run hrun
      exact ⟨hl.pc r (hne _ rfl), hl.alt r (hne _ rfl)⟩
  | tick => exact ⟨rfl, Or.inl rfl⟩
  | interrupt hidle => exact ⟨rfl, Or.inl rfl⟩
  | handle hhandle =>
      obtain ⟨hpc, _, _, halt⟩ := leaves_handle hhandle
      exact ⟨by rw [hpc], halt r⟩

/-- Time goes on. -/
theorem clock_le (hstep : s.step net pun act = some t) : s.clock ≤ t.clock := by
  cases step_cases hstep with
  | run hrun => exact (leaves_run hrun).clock.symm.le
  | handle hhandle => exact (leaves_handle hhandle).2.2.1.symm.le
  | @tick δ =>
      change s.clock ≤ s.clock + δ
      omega
  | _ => exact le_rfl

/-- A registered writer stays so while the channel's reader is in no call of
`in`. -/
theorem Inv.writer_stays (h : Inv net s) (hstep : s.step net pun act = some t) {c : Chan}
    (hw : s.waiting c = some (net.role c .output))
    (hr : (s.pc (net.role c .input)).channel = none) :
    t.waiting c = some (net.role c .output) := by
  cases step_cases hstep with
  | @run p t hrun =>
      obtain heq | hnone | ⟨e, hpc⟩ | ⟨f, k, sel, hpc, hg, hp⟩ := (leaves_run hrun).waiting c
      · exact heq.trans hw
      · exact absurd (hw.symm.trans hnone) (by simp)
      · obtain ⟨ha, hask⟩ := h.entering hpc
        have hp := ha.role
        cases e with
        | input => simp [← hp, hpc, Pc.channel] at hr
        | output =>
            -- the writer is registered, and calls `out` on its channel again
            have hwriter : (s.view net c).writer = .ask (s.buf .output p) := hask
            have hne := ((h.meets c).found_reader hask hw).1
            exact absurd hne.symm (net.distinct c)
      · have hc : net.role c .input = p :=
          Select.Active.readBy (k := k + 1) (Select.Active.succ_iff.mpr (Or.inr hg))
            ((h.roles p).readBy f (k + 1) (by rw [hpc]; rfl))
        exact absurd (hc.trans (Option.some.inj (hp.symm.trans hw))) (net.distinct c)
  | handle hhandle => exact (congrFun (leaves_handle hhandle).2.1 c).trans hw
  | _ => exact hw

/-- **A ready guard stays ready** while its process is in no call of `in`. -/
theorem Inv.ready_kept (h : Inv net s) (hstep : s.step net pun act = some t)
    (hr : (s.pc r).channel = none) {g : Guard Chan} (hg : g.readBy net r = true)
    (hready : g.Ready net s) : g.Ready net t := by
  cases g with
  | chan c =>
      obtain rfl : net.role c .input = r := by simpa [Guard.readBy] using hg
      exact h.writer_stays hstep hready hr
  | skip => trivial
  | timer time => exact le_trans hready (clock_le hstep)

omit [DecidableEq Chan] in
theorem timely_init (proc : Fin N) (msg : Msg) : Timely (init N U Chan proc msg) := by
  constructor <;> simp [init]

omit [DecidableEq Chan] in
/-- One handler goes on, and the clock does not go back. -/
theorem Timely.moves (h : Timely s) (hclock : s.clock ≤ t.clock) {π : Fin U}
    {place : HandlerPc N} (hhandler : t.handler = Function.update s.handler π place)
    (hloop : ∀ now, place = .loop now → now ≤ s.clock)
    (hexpired : ∀ x now, place = .free x now ∨ place = .freeWaiting x now →
      x.time ≤ s.clock ∧ now ≤ s.clock)
    (henqueue : ∀ q now, place = .enqueue q now → now ≤ s.clock) : Timely t := by
  have hcases : ∀ ρ, t.handler ρ = s.handler ρ ∨ t.handler ρ = place := by
    intro ρ
    by_cases hρ : ρ = π
    · exact Or.inr (by rw [hhandler, hρ, Function.update_self])
    · exact Or.inl (by rw [hhandler, Function.update_of_ne hρ])
  refine ⟨fun ρ now hn => ?_, fun ρ x now hn => ?_, fun ρ q now hn => ?_⟩
  · rcases hcases ρ with heq | heq <;> rw [heq] at hn
    · exact (h.loop ρ now hn).trans hclock
    · exact (hloop now hn).trans hclock
  · have hboth : x.time ≤ s.clock ∧ now ≤ s.clock := by
      rcases hcases ρ with heq | heq <;> rw [heq] at hn
      · exact h.expired ρ x now hn
      · exact hexpired x now hn
    exact ⟨hboth.1.trans hclock, hboth.2.trans hclock⟩
  · rcases hcases ρ with heq | heq <;> rw [heq] at hn
    · exact (h.enqueue ρ q now hn).trans hclock
    · exact (henqueue q now hn).trans hclock

omit [DecidableEq Chan] in
/-- Nothing happens in the handlers. -/
theorem Timely.rests (h : Timely s) (hclock : s.clock ≤ t.clock)
    (hhandler : t.handler = s.handler) : Timely t := by
  refine ⟨fun ρ now hn => ?_, fun ρ x now hn => ?_, fun ρ q now hn => ?_⟩
  · exact (h.loop ρ now (hhandler ▸ hn)).trans hclock
  · obtain ⟨h1, h2⟩ := h.expired ρ x now (hhandler ▸ hn)
    exact ⟨h1.trans hclock, h2.trans hclock⟩
  · exact (h.enqueue ρ q now (hhandler ▸ hn)).trans hclock

omit [DecidableEq Chan] in
theorem Timely.handle (h : Timely s) {π : Fin U} (hstep : s.handle π = some t) :
    Timely t := by
  cases hpc : s.handler π with
  | idle => simp [Comm.handle, hpc] at hstep
  | loop now =>
      have hnow := h.loop π now hpc
      simp only [Comm.handle, hpc, Option.some.injEq] at hstep
      subst hstep
      split
      next => exact h.moves le_rfl rfl (by simp) (by simp) (by simp)
      next head _ =>
        split
        next hdue =>
          split
          next =>
            refine h.moves le_rfl rfl (by simp) ?_ (by simp)
            intro x n hx
            obtain ⟨rfl, rfl⟩ : _ = x ∧ now = n := by simpa using hx
            exact ⟨hdue.trans hnow, hnow⟩
          next => exact h.rests le_rfl rfl
        next => exact h.moves le_rfl rfl (by simp) (by simp) (by simp)
  | free x now =>
      have hx := h.expired π x now (Or.inl hpc)
      have hloop : ∀ n, (.loop now : HandlerPc N) = .loop n → n ≤ s.clock := by
        intro n hn
        cases hn
        exact hx.2
      simp only [Comm.handle, hpc, Option.some.injEq] at hstep
      subst hstep
      split
      next => exact h.moves le_rfl rfl hloop (by simp) (by simp)
      next =>
        refine h.moves le_rfl rfl (by simp) ?_ (by simp)
        intro y n hy
        obtain ⟨rfl, rfl⟩ : x = y ∧ now = n := by simpa using hy
        exact hx
      next => exact h.moves le_rfl rfl hloop (by simp) (by simp)
  | freeWaiting x now =>
      have hx := h.expired π x now (Or.inr hpc)
      simp only [Comm.handle, hpc, Option.some.injEq] at hstep
      subst hstep
      split
      next =>
        refine h.moves le_rfl rfl (by simp) (by simp) ?_
        intro q n hq
        obtain ⟨_, rfl⟩ : x.proc = q ∧ now = n := by simpa using hq
        exact hx.2
      next =>
        refine h.moves le_rfl rfl ?_ (by simp) (by simp)
        intro n hn
        cases hn
        exact hx.2
  | enqueue q now =>
      have hnow := h.enqueue π q now hpc
      simp only [Comm.handle, hpc, Option.some.injEq] at hstep
      subst hstep
      refine h.moves le_rfl rfl ?_ (by simp) (by simp)
      intro n hn
      cases hn
      exact hnow

theorem Timely.step (h : Timely s) (hstep : s.step net pun act = some t) : Timely t := by
  have hclock := clock_le hstep
  cases step_cases hstep with
  | run hrun => exact h.rests hclock (leaves_run hrun).handler
  | handle hhandle => exact h.handle hhandle
  | interrupt hidle =>
      refine h.moves hclock rfl ?_ (by simp) (by simp)
      intro n hn
      cases hn
      exact le_rfl
  | _ => exact h.rests hclock rfl

/-- A wakeup for a guard finds that guard ready. -/
theorem Wins.ready (hw : Wins s r act) (hinv : Inv net s) (ht : Timely s)
    (hC : WakesForGuard s act) {f : Select Chan} {k : Nat}
    (hg : (s.pc r).guards = some (f, k)) (hs : (s.pc r).stage ≠ .disabling) :
    ∃ g ∈ f.guards, g.Ready net s := by
  cases act with
  | run p =>
      obtain ⟨c, hwin⟩ := hw
      obtain ⟨hmem, hreg⟩ := hC c r hwin f k hg hs
      obtain rfl : p = net.role c .output := by
        refine (hinv.roles p).channel .output c ?_
        rcases hwin with ⟨hpc, _⟩ | ⟨hpc, _⟩ <;> rw [hpc] <;> rfl
      exact ⟨.chan c, hmem, hreg⟩
  | handle π =>
      obtain ⟨x, now, rfl, hwin⟩ := hw
      refine ⟨.timer x.time, hC x now hwin f k hg hs, ?_⟩
      refine (ht.expired π x now ?_).1
      rcases hwin with ⟨hpc, _⟩ | ⟨hpc, _⟩
      · exact Or.inl hpc
      · exact Or.inr hpc
  | _ => exact absurd hw id

omit [DecidableEq Chan] in
theorem Found.mono {f : Select Chan} {k : Nat} {sel : Option Nat}
    (h : Found net s f k sel) (hf : f.guards.all (·.readBy net r) = true)
    (hkept : ∀ g : Guard Chan, g.readBy net r = true → g.Ready net s → g.Ready net t) :
    Found net t f k sel := by
  have hread : ∀ (i : Nat) g, f.guards[i]? = some g → g.readBy net r = true :=
    fun i g hg => List.all_eq_true.mp hf g (List.mem_of_getElem? hg)
  cases sel with
  | some i =>
      obtain ⟨g, hg, hready⟩ := h
      exact ⟨g, hg, hkept g (hread i g hg) hready⟩
  | none =>
      obtain ⟨j, g, hj, hg, hready⟩ := h
      have hg' := (Select.guard_index hg).2
      exact ⟨j, g, hj, hg, hkept g (hread _ g hg') hready⟩

/-- What a select knows while another process, or a handler, acts. -/
theorem Selecting.others (h : Selecting net s r) (hinv : Inv net s) (ht : Timely s)
    (hC : WakesForGuard s act) (hstep : s.step net pun act = some t)
    (hr : actor net act ≠ some r) : Selecting net t r := by
  obtain ⟨hpc, halt⟩ := others_leave hstep hr
  have hkept : (s.pc r).channel = none → ∀ g : Guard Chan, g.readBy net r = true →
      g.Ready net s → g.Ready net t := fun hch g hg => hinv.ready_kept hstep hch hg
  have hwoken : ∀ f k, (s.pc r).guards = some (f, k) → (s.pc r).stage ≠ .disabling →
      (s.alt_state r = .ready → ∃ g ∈ f.guards, g.Ready net s) →
      t.alt_state r = .ready → ∃ g ∈ f.guards, g.Ready net t := by
    intro f k hg hs hold ha
    have hch : (s.pc r).channel = none := by
      cases hp : s.pc r <;> simp [hp, Pc.guards, Pc.channel] at hg ⊢
    have hsome : ∃ g ∈ f.guards, g.Ready net s := by
      rcases halt with heq | hw
      · exact hold (heq.symm.trans ha)
      · exact hw.ready hinv ht hC hg hs
    obtain ⟨g, hmem, hready⟩ := hsome
    have hread := List.all_eq_true.mp ((hinv.roles r).readBy f k hg) g hmem
    exact ⟨g, hmem, hkept hch g hread hready⟩
  have hfound : ∀ f k sel, (s.pc r).guards = some (f, k) → Found net s f k sel →
      Found net t f k sel := by
    intro f k sel hg hf
    have hch : (s.pc r).channel = none := by
      cases hp : s.pc r <;> simp [hp, Pc.guards, Pc.channel] at hg ⊢
    exact hf.mono ((hinv.roles r).readBy f k hg) (hkept hch)
  unfold Selecting at h ⊢
  rw [hpc]
  cases hp : s.pc r <;> rw [hp] at h hwoken hfound hkept
  case enable f k => exact hwoken f k rfl (by simp [Pc.stage]) h
  case fill f k time => exact hwoken f k rfl (by simp [Pc.stage]) h
  case insert f k desc => exact hwoken f k rfl (by simp [Pc.stage]) h
  case shouldWait f => exact hwoken f f.size rfl (by simp [Pc.stage]) h
  case altWait f => exact hwoken f f.size rfl (by simp [Pc.stage]) h
  case disable f k sel => exact hfound f k sel rfl h
  case remove f k sel time => exact hfound f k sel rfl h
  case release f k sel desc => exact hfound f k sel rfl h
  case finish f sel => exact hfound f 0 sel rfl h
  case selected f sel => exact ⟨h.1, h.2.mono h.1 (hkept rfl)⟩
  all_goals trivial

omit [DecidableEq Chan] in
/-- Outside the selects there is nothing to know. -/
theorem selecting_away (h : t.pc r = .idle ∨ (t.pc r).channel ≠ none) :
    Selecting net t r := by
  unfold Selecting
  cases hp : t.pc r <;> rw [hp] at h <;> simp [Pc.channel] at h ⊢

/-- A call of `in` or `out` goes on, or returns. -/
theorem run_call (hch : (s.pc p).channel ≠ none) (hstep : s.run pun p = some t) :
    t.pc p = .idle ∨ (t.pc p).channel ≠ none := by
  have hgoto : ∀ (u : Comm N U Chan Msg) (pc' : Pc N Chan), pc'.channel ≠ none →
      ((u.goto p pc').pc p).channel ≠ none := by
    intro u pc' hpc'
    simpa [goto] using hpc'
  have hret : ∀ (u : Comm N U Chan Msg) e c, (u.ret p e c).pc p = .idle := by
    intro u e c
    cases e <;> exact Function.update_self ..
  cases hpc : s.pc p <;> rw [hpc] at hch
  case call e c =>
    refine Or.inr ?_
    cases e with
    | input =>
        simp only [Comm.run, hpc, Comm.in] at hstep
        split at hstep
        next w hw =>
          obtain ⟨src, _, rfl⟩ := Option.map_eq_some_iff.mp hstep
          exact hgoto _ _ (by simp [Pc.channel])
        next => exact Option.some.inj hstep ▸ hgoto _ _ (by simp [Pc.channel])
    | output =>
        simp only [Comm.run, hpc, Comm.out, Option.some.injEq] at hstep
        subst hstep
        split
        next => split <;> exact hgoto _ _ (by simp [Pc.channel])
        next => exact hgoto _ _ (by simp [Pc.channel])
  case wake e c q =>
    simp only [Comm.run, hpc, Option.some.injEq] at hstep
    subst hstep
    split
    next => exact Or.inr (hgoto _ _ (by simp [Pc.channel]))
    next => exact Or.inl (hret _ e c)
  case schedule e c q =>
    simp only [Comm.run, hpc, Option.some.injEq] at hstep
    subst hstep
    exact Or.inl (hret _ e c)
  case free c q =>
    simp only [Comm.run, hpc, Option.some.injEq] at hstep
    subst hstep
    refine Or.inr ?_
    split <;> exact hgoto _ _ (by simp [Pc.channel])
  case freeWaiting c q =>
    simp only [Comm.run, hpc, Option.some.injEq] at hstep
    subst hstep
    refine Or.inr ?_
    split <;> exact hgoto _ _ (by simp [Pc.channel])
  case freeSchedule c q =>
    simp only [Comm.run, hpc, Option.some.injEq] at hstep
    exact Or.inr (hstep ▸ hgoto _ _ (by simp [Pc.channel]))
  case relinquish e c =>
    simp only [Comm.run, hpc, Option.some.injEq] at hstep
    subst hstep
    split
    next => exact Or.inr (hgoto _ _ (by simp [Pc.channel]))
    next => exact Or.inl (hret _ e c)
  case wait e c =>
    simp only [Comm.run, hpc] at hstep
    split at hstep
    next => exact Or.inl (Option.some.inj hstep ▸ hret _ e c)
    next => cases hstep
  all_goals simp [Pc.channel] at hch

/-- Somebody else is registered on a channel that the process reads: the
writer. -/
theorem Inv.registered_writer (h : Inv net s) {c : Chan}
    (hc : net.role c .input = p) {q : Fin N} (hq : s.waiting c = some q) (hqp : q ≠ p) :
    s.waiting c = some (net.role c .output) := by
  rcases (h.meets c).holder with h1 | ⟨h1, _⟩ | ⟨h1, _⟩ | ⟨h1, _⟩
  · exact absurd (hq.symm.trans h1) (by simp)
  · exact h1
  · exact absurd ((Option.some.inj (hq.symm.trans h1)).trans hc) hqp
  · exact absurd ((Option.some.inj (hq.symm.trans h1)).trans hc) hqp

omit [DecidableEq Chan] in
/-- In the enabling loop, or behind it, a process that has been woken has a
ready guard. -/
theorem selecting_enabling {f : Select Chan} {k : Nat}
    (hg : (t.pc p).guards = some (f, k)) (hs : (t.pc p).stage ≠ .disabling) :
    Selecting net t p ↔ (t.alt_state p = .ready → ∃ g ∈ f.guards, g.Ready net t) := by
  unfold Selecting
  cases hp : t.pc p <;> rw [hp] at hg hs <;> simp [Pc.guards, Pc.stage] at hg hs ⊢
  all_goals
    obtain ⟨rfl, rfl⟩ := hg
    exact Iff.rfl

omit [DecidableEq Chan] in
theorem selecting_disabling {f : Select Chan} {k : Nat} {sel : Option Nat}
    (hpc : t.pc p = .disable f k sel) (h : Found net t f k sel) : Selecting net t p := by
  unfold Selecting
  rw [hpc]
  exact h

omit [DecidableEq Chan] in
/-- The readiness check of `enable_timeout`, for the time of a guard. -/
theorem Selecting.enable_timeout {f : Select Chan} {k : Nat} {time : Int}
    (hmem : ∃ j, j < min (k + 1) f.size ∧ f.guard j = some (.timer time))
    (ht : s.goto p (s.enable_timeout f k time) = t)
    (hwoken : t.alt_state p = .ready → ∃ g ∈ f.guards, g.Ready net t) :
    Selecting net t p := by
  have hpc : t.pc p = s.enable_timeout f k time := by
    rw [← ht]
    exact Function.update_self ..
  have hclock : t.clock = s.clock := by
    rw [← ht]
    rfl
  unfold Comm.enable_timeout at hpc
  split at hpc
  next hdue =>
    obtain ⟨j, hj, hg⟩ := hmem
    exact selecting_disabling hpc ⟨j, _, hj, hg, le_of_le_of_eq hdue hclock.symm⟩
  next =>
    exact (selecting_enabling (f := f) (k := k) (by rw [hpc]; rfl)
      (by rw [hpc]; simp [Pc.stage])).mpr hwoken

/-- The enabling loop. -/
theorem Selecting.enable (h : Selecting net s p) (hinv : Inv net s) {f : Select Chan}
    {k : Nat} (hpc : s.pc p = .enable f k) (ht : s.enable p f k = t)
    (hkept : ∀ g : Guard Chan, g.readBy net p = true → g.Ready net s → g.Ready net t) :
    Selecting net t p := by
  have hread := (hinv.roles p).readBy f k (by rw [hpc]; rfl)
  have hwoken : t.alt_state p = s.alt_state p → t.alt_state p = .ready →
      ∃ g ∈ f.guards, g.Ready net t := by
    intro halt ha
    have hold := (selecting_enabling (by rw [hpc]; rfl) (by rw [hpc]; simp [Pc.stage])).mp h
    obtain ⟨g, hmem, hready⟩ := hold (halt.symm.trans ha)
    exact ⟨g, hmem, hkept g (List.all_eq_true.mp hread g hmem) hready⟩
  have hstop : ∀ g, f.guard k = some g → g.Ready net s →
      t.pc p = .disable f (k + 1) none → Selecting net t p := by
    intro g hg hready hpc'
    obtain ⟨_, hi⟩ := Select.guard_index hg
    have hgread := List.all_eq_true.mp hread g (List.mem_of_getElem? hi)
    exact selecting_disabling hpc' ⟨k, g, by omega, hg, hkept g hgread hready⟩
  unfold Comm.enable at ht
  split at ht
  next c hguard =>
    unfold enable_channel at ht
    split at ht
    next q hq =>
      by_cases hqp : q = p
      · have hpc' : t.pc p = .enable f (k + 1) := by
          rw [← ht]
          simp [goto, hqp]
        exact (selecting_enabling (f := f) (k := k + 1) (by rw [hpc']; rfl)
          (by rw [hpc']; simp [Pc.stage])).mpr (hwoken (by rw [← ht]; rfl))
      · have hc : net.role c .input = p :=
          Select.Active.readBy (k := k + 1) (Select.Active.succ_iff.mpr (Or.inr hguard)) hread
        refine hstop _ hguard (hinv.registered_writer hc hq hqp) ?_
        rw [← ht]
        simp [goto, hqp]
    next =>
      have hpc' : t.pc p = .enable f (k + 1) := by
        rw [← ht]
        simp [goto]
      exact (selecting_enabling (f := f) (k := k + 1) (by rw [hpc']; rfl)
        (by rw [hpc']; simp [Pc.stage])).mpr (hwoken (by rw [← ht]; rfl))
  next hguard =>
    refine hstop _ hguard trivial ?_
    rw [← ht]
    simp [goto]
  next time hguard =>
    have hk := (Select.guard_index hguard).1
    exact Selecting.enable_timeout ⟨k, by omega, hguard⟩ ht (hwoken (by rw [← ht]; rfl))
  next hguard =>
    split at ht
    next hearliest =>
      obtain ⟨j, hj, hg⟩ := Select.guard_of_mem (Select.earliest_mem hearliest)
      exact Selecting.enable_timeout ⟨j, by omega, hg⟩ ht (hwoken (by rw [← ht]; rfl))
    next =>
      have hpc' : t.pc p = .shouldWait f := by
        rw [← ht]
        simp [goto]
      exact (selecting_enabling (f := f) (k := f.size) (by rw [hpc']; rfl)
        (by rw [hpc']; simp [Pc.stage])).mpr (hwoken (by rw [← ht]; rfl))

/-- The disabling loop. -/
theorem Selecting.disable (h : Selecting net s p) (hinv : Inv net s) {f : Select Chan}
    {k : Nat} {sel : Option Nat} (hpc : s.pc p = .disable f k sel)
    (hstep : s.disable p f sel k = some t)
    (hkept : ∀ g : Guard Chan, g.readBy net p = true → g.Ready net s → g.Ready net t) :
    Selecting net t p := by
  have hread := (hinv.roles p).readBy f k (by rw [hpc]; rfl)
  have hfound : Found net s f k sel := by
    unfold Selecting at h
    rw [hpc] at h
    exact h
  cases k with
  | zero =>
      have hpc' : t.pc p = .finish f sel := by
        rw [← Option.some.inj hstep]
        exact Function.update_self ..
      unfold Selecting
      rw [hpc']
      exact hfound.mono hread hkept
  | succ k =>
      -- what is found already, or among the first `k` guards if this one is not ready
      have hrest : ∀ g, f.guard k = some g → ¬ g.Ready net s → Found net t f k sel := by
        intro g hg hnot
        refine Found.mono ?_ hread hkept
        cases sel with
        | some i => exact hfound
        | none =>
            obtain ⟨j, g', hj, hg', hready⟩ := hfound
            have hjk : j ≠ k := by
              rintro rfl
              obtain rfl : g = g' := Option.some.inj (hg.symm.trans hg')
              exact hnot hready
            exact ⟨j, g', by omega, hg', hready⟩
      have hthis : ∀ g, f.guard k = some g → g.Ready net s →
          Found net t f k (some (f.index k)) := by
        intro g hg hready
        obtain ⟨_, hi⟩ := Select.guard_index hg
        have hgread := List.all_eq_true.mp hread g (List.mem_of_getElem? hi)
        exact ⟨g, hi, hkept g hgread hready⟩
      simp only [Comm.disable] at hstep
      split at hstep
      next c hguard =>
        have hc : net.role c .input = p :=
          Select.Active.readBy (k := k + 1) (Select.Active.succ_iff.mpr (Or.inr hguard)) hread
        have ht := Option.some.inj hstep
        unfold disable_channel at ht
        split at ht
        next hready =>
          obtain ⟨q, hq⟩ := Option.ne_none_iff_exists'.mp hready.1
          have hqp : q ≠ p := fun heq => hready.2 (heq ▸ hq)
          refine selecting_disabling (by rw [← ht]; exact Function.update_self ..) ?_
          exact hthis _ hguard (hinv.registered_writer hc hq hqp)
        next hready =>
          refine selecting_disabling (by rw [← ht]; exact Function.update_self ..) ?_
          refine hrest _ hguard ?_
          intro hw
          refine hready ⟨by rw [hw]; simp, ?_⟩
          rw [hw, ← hc]
          intro heq
          exact net.distinct c (Option.some.inj heq).symm
      next hguard =>
        have ht := Option.some.inj hstep
        exact selecting_disabling (by rw [← ht]; exact Function.update_self ..)
          (hthis _ hguard trivial)
      next time hguard =>
        have ht := Option.some.inj hstep
        have hpc' : t.pc p = .remove f k
            (if s.clock ≥ time then some (f.index k) else sel) time := by
          rw [← ht]
          exact Function.update_self ..
        unfold Selecting
        rw [hpc']
        change Found net t f k (if s.clock ≥ time then some (f.index k) else sel)
        split
        next hdue => exact hthis _ hguard hdue
        next hdue => exact hrest _ hguard hdue
      next => cases hstep

/-- What a select knows after a step of its own. -/
theorem Selecting.run (h : Selecting net s p) (hinv : Inv net s)
    (hstep : s.run pun p = some t)
    (hkept : (s.pc p).channel = none → ∀ g : Guard Chan, g.readBy net p = true →
      g.Ready net s → g.Ready net t) : Selecting net t p := by
  by_cases hch : (s.pc p).channel = none
  swap
  · exact selecting_away (run_call hch hstep)
  replace hkept := hkept hch
  have hp := hinv.wakes.each p
  have hwoken : ∀ f k, (s.pc p).guards = some (f, k) → (s.pc p).stage ≠ .disabling →
      s.alt_state p = .ready → ∃ g ∈ f.guards, g.Ready net t := by
    intro f k hg hs ha
    obtain ⟨g, hmem, hready⟩ := (selecting_enabling hg hs).mp h ha
    have hread := List.all_eq_true.mp ((hinv.roles p).readBy f k hg) g hmem
    exact ⟨g, hmem, hkept g hread hready⟩
  -- the disabling loop begins behind the last guard
  have hstart : ∀ f, (∃ g ∈ f.guards, g.Ready net t) → Found net t f f.size none := by
    rintro f ⟨g, hmem, hready⟩
    obtain ⟨j, hj, hg⟩ := Select.guard_of_mem hmem
    exact ⟨j, g, hj, hg, hready⟩
  have hfound : ∀ f k sel, (s.pc p).guards = some (f, k) → Found net s f k sel →
      Found net t f k sel := fun f k sel hg hf =>
    hf.mono ((hinv.roles p).readBy f k hg) hkept
  cases hpc : s.pc p <;> rw [hpc] at hch hwoken hfound <;> simp [Pc.channel] at hch
  case idle => simp [Comm.run, hpc] at hstep
  case enable f k =>
    simp only [Comm.run, hpc, Option.some.injEq] at hstep
    exact h.enable hinv hpc hstep hkept
  case fill f k time =>
    simp only [Comm.run, hpc, Option.some.injEq] at hstep
    have hpc' : t.pc p = .insert f k s.tm.allocate_mem.1 := by
      rw [← hstep]
      exact Function.update_self ..
    have halt : t.alt_state = s.alt_state := by rw [← hstep]; rfl
    refine (selecting_enabling (f := f) (k := k) (by rw [hpc']; rfl)
      (by rw [hpc']; simp [Pc.stage])).mpr ?_
    rw [halt]
    exact hwoken f k rfl (by simp [Pc.stage])
  case insert f k desc =>
    simp only [Comm.run, hpc] at hstep
    obtain ⟨x, _, ht⟩ := Option.map_eq_some_iff.mp hstep
    have hpc' : t.pc p = enabled f k := by
      rw [← ht]
      exact Function.update_self ..
    have halt : t.alt_state = s.alt_state := by rw [← ht]; rfl
    obtain ⟨k', hg', hs'⟩ : ∃ k', (t.pc p).guards = some (f, k') ∧
        (t.pc p).stage ≠ .disabling := by
      rw [hpc', enabled]
      split
      · exact ⟨k + 1, rfl, by simp [Pc.stage]⟩
      · exact ⟨f.size, rfl, by simp [Pc.stage]⟩
    refine (selecting_enabling hg' hs').mpr ?_
    rw [halt]
    exact hwoken f k rfl (by simp [Pc.stage])
  case shouldWait f =>
    simp only [Comm.run, hpc, Option.some.injEq] at hstep
    split at hstep
    next =>
      have hpc' : t.pc p = .altWait f := by
        rw [← hstep]
        exact Function.update_self ..
      have halt : t.alt_state p = .waiting := by
        rw [← hstep]
        exact Function.update_self ..
      refine (selecting_enabling (f := f) (k := f.size) (by rw [hpc']; rfl)
        (by rw [hpc']; simp [Pc.stage])).mpr ?_
      simp [halt]
    next hne =>
      have hallows := hp.alt
      rw [hpc] at hallows
      refine selecting_disabling (by rw [← hstep]; exact Function.update_self ..) (hstart f ?_)
      exact hwoken f f.size rfl (by simp [Pc.stage]) (hallows.resolve_left hne)
  case altWait f =>
    simp only [Comm.run, hpc] at hstep
    split at hstep
    next hrun =>
      have hallows := hp.alt
      rw [hpc] at hallows
      have hready : s.alt_state p = .ready := by
        refine hallows.resolve_left fun hw => ?_
        exact absurd (hrun.symm.trans (hp.resting hw).1) (by simp)
      have ht := Option.some.inj hstep
      refine selecting_disabling (by rw [← ht]; exact Function.update_self ..) (hstart f ?_)
      exact hwoken f f.size rfl (by simp [Pc.stage]) hready
    next => cases hstep
  case disable f k sel =>
    simp only [Comm.run, hpc] at hstep
    exact h.disable hinv hpc hstep hkept
  case remove f k sel time =>
    unfold Selecting at h
    rw [hpc] at h
    simp only [Comm.run, hpc] at hstep
    obtain ⟨x, _, ht⟩ := Option.map_eq_some_iff.mp hstep
    unfold Selecting
    cases hx : x.2 with
    | none =>
        have hpc' : t.pc p = .disable f k sel := by
          rw [← ht]
          simp [Comm.goto, hx]
        rw [hpc']
        exact hfound f k sel rfl h
    | some desc =>
        have hpc' : t.pc p = .release f k sel desc := by
          rw [← ht]
          simp [Comm.goto, hx]
        rw [hpc']
        exact hfound f k sel rfl h
  case release f k sel desc =>
    unfold Selecting at h
    rw [hpc] at h
    simp only [Comm.run, hpc, Option.some.injEq] at hstep
    refine selecting_disabling (by rw [← hstep]; exact Function.update_self ..) ?_
    exact hfound f k sel rfl h
  case finish f sel =>
    unfold Selecting at h
    rw [hpc] at h
    simp only [Comm.run, hpc, Option.some.injEq] at hstep
    have hpc' : t.pc p = .selected f sel := by
      rw [← hstep]
      exact Function.update_self ..
    unfold Selecting
    rw [hpc']
    exact ⟨(hinv.roles p).readBy f 0 (by rw [hpc]; rfl), hfound f 0 sel rfl h⟩
  case selected f sel =>
    simp only [Comm.run, hpc, Option.some.injEq] at hstep
    exact selecting_away (Or.inl (by rw [← hstep]; exact Function.update_self ..))

/-- What a select knows after any step. -/
theorem Selecting.step (h : Selecting net s r) (hinv : Inv net s) (ht : Timely s)
    (hC : WakesForGuard s act) (hstep : s.step net pun act = some t) : Selecting net t r := by
  by_cases hr : actor net act = some r
  swap
  · exact h.others hinv ht hC hstep hr
  have hkept := fun hch g hg => hinv.ready_kept (r := r) (g := g) hstep hch hg
  cases step_cases hstep with
  | run hrun =>
      obtain rfl := Option.some.inj hr
      exact h.run hinv hrun hkept
  | «in» hidle =>
      obtain rfl := Option.some.inj hr
      exact selecting_away (Or.inr (by simp [goto, Pc.channel]))
  | out hidle =>
      obtain rfl := Option.some.inj hr
      exact selecting_away (Or.inr (by simp [goto, Pc.channel]))
  | @select p f hidle hguards =>
      obtain rfl := Option.some.inj hr
      refine (selecting_enabling (f := f) (k := 0) (by simp [goto, Pc.guards])
        (by simp [goto, Pc.stage])).mpr ?_
      simp [goto]
  | tick => cases hr
  | interrupt hidle => cases hr
  | handle hhandle => cases hr

omit [DecidableEq Chan] in
/-- A select that returns has found a ready guard. -/
theorem Selecting.returns (h : ∀ r, Selecting net s r) : Returns net s := by
  intro r f sel hpc
  have hr := h r
  unfold Selecting at hr
  rw [hpc] at hr
  obtain ⟨_, hf⟩ := hr
  cases sel with
  | some i =>
      obtain ⟨g, hg, hready⟩ := hf
      exact ⟨i, g, rfl, (List.getElem?_eq_some_iff.mp hg).1, hg, hready⟩
  | none =>
      obtain ⟨j, _, hj, _⟩ := hf
      omega

end Comm

/-- **A select returns a ready guard** in every run in which nobody wakes a
process in a select for anything but a guard of that select. -/
theorem selects_return_ready (net : Net N Chan) (pun : Fin N → Fin U) (proc : Fin N)
    (msg : Msg) (acts : List (CommAct N U Chan Msg))
    (hC : Along (Comm.step net pun) Comm.WakesForGuard (Comm.init N U Chan proc msg) acts) :
    Throughout (Comm.step net pun) (Comm.Returns net) (Comm.init N U Chan proc msg) acts := by
  refine throughout_of_along
    (I := fun s => Comm.Inv net s ∧ Comm.Timely s ∧ ∀ r, Comm.Selecting net s r)
    ?_ (fun s h => Comm.Selecting.returns h.2.2) hC ⟨Comm.inv_init proc msg, Comm.timely_init proc msg, ?_⟩
  · rintro s act t ⟨hinv, ht, hsel⟩ hC hstep
    exact ⟨hinv.step hstep, ht.step hstep, fun r => (hsel r).step hinv ht hC hstep⟩
  · exact fun r => Comm.selecting_away (Or.inl rfl)

/-- A channel of two processes. -/
def oneChannel : Net 2 Unit where
  role := fun _ e => match e with
    | .input => 0
    | .output => 1
  distinct := by simp

/-- A select that waits for a writer and is woken by it. -/
theorem selects_return_ready_one_channel :
    Throughout (Comm.step oneChannel fun _ : Fin 2 => (0 : Fin 1)) (Comm.Returns oneChannel)
      (Comm.init 2 1 Unit 0 ())
      [.select 0 ⟨[.chan ()], 0⟩, .run 0, .run 0, .run 0, .out () (), .run 1, .run 1,
        .run 1, .run 1, .run 0, .run 0, .run 0, .run 0] := by
  refine selects_return_ready oneChannel _ 0 () _ ?_
  refine ⟨trivial, ?_⟩
  rintro _ ⟨⟩
  refine ⟨by rintro _ _ (⟨⟨⟩, _⟩ | ⟨⟨⟩, _⟩), ?_⟩
  rintro _ ⟨⟩
  refine ⟨by rintro _ _ (⟨⟨⟩, _⟩ | ⟨⟨⟩, _⟩), ?_⟩
  rintro _ ⟨⟩
  refine ⟨by rintro _ _ (⟨⟨⟩, _⟩ | ⟨⟨⟩, _⟩), ?_⟩
  rintro _ ⟨⟩
  refine ⟨trivial, ?_⟩
  rintro _ ⟨⟩
  refine ⟨by rintro _ _ (⟨⟨⟩, _⟩ | ⟨⟨⟩, _⟩), ?_⟩
  rintro _ ⟨⟩
  refine ⟨by rintro _ _ (⟨⟨⟩, ⟨⟩⟩ | ⟨⟨⟩, _⟩), ?_⟩
  rintro _ ⟨⟩
  refine ⟨?_, ?_⟩
  · rintro _ _ (⟨⟨⟩, _⟩ | ⟨⟨⟩, _⟩) _ _ ⟨⟩ -
    exact ⟨List.mem_singleton.mpr rfl, rfl⟩
  rintro _ ⟨⟩
  refine ⟨by rintro _ _ (⟨⟨⟩, _⟩ | ⟨⟨⟩, _⟩), ?_⟩
  rintro _ ⟨⟩
  refine ⟨by rintro _ _ (⟨⟨⟩, _⟩ | ⟨⟨⟩, _⟩), ?_⟩
  rintro _ ⟨⟩
  refine ⟨by rintro _ _ (⟨⟨⟩, _⟩ | ⟨⟨⟩, _⟩), ?_⟩
  rintro _ ⟨⟩
  refine ⟨by rintro _ _ (⟨⟨⟩, _⟩ | ⟨⟨⟩, _⟩), ?_⟩
  rintro _ ⟨⟩
  refine ⟨by rintro _ _ (⟨⟨⟩, _⟩ | ⟨⟨⟩, _⟩), ?_⟩
  rintro _ ⟨⟩
  trivial

/-- **A stale wakeup.**  The reader selects a skip guard and the channel, finds
the writer registered there and takes its message; in the next select it
registers itself at the channel, and only then does the writer, which has not
finished telling it about the first, make it Ready.  No guard is, and the
select returns -1. -/
theorem select_returns_none :
    ¬ ∀ acts, Throughout (Comm.step oneChannel fun _ : Fin 2 => (0 : Fin 1))
      (Comm.Returns oneChannel) (Comm.init 2 1 Unit 0 ()) acts := by
  intro hall
  have hlast := (hall
    [.select 0 ⟨[.chan (), .skip], 0⟩, .run 0, .run 0, .out () (), .run 1,
      .run 0, .run 0, .run 0, .run 0, .run 0, .in (), .run 0, .run 0,
      .select 0 ⟨[.chan ()], 0⟩, .run 0, .run 0, .run 1, .run 0, .run 0, .run 0,
      .run 0]).last rfl
  obtain ⟨i, g, hi, _⟩ := hlast 0 ⟨[.chan ()], 0⟩ none rfl
  cases hi

end Cxp
