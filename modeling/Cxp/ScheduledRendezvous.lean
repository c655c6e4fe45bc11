import Cxp.ScheduledChannels

/-!
# The rendezvous under the scheduler (`comm.c`, `alt.c`, `sched.c`)

The calls make a run of `Comm`, so messages arrive as they do there, however the
processes are preempted.  What the scheduler adds is that whoever has been woken gets
the processor: as long as nobody in its window is both preempted and scheduled, a
process that has been made Ready in a call has the processor, or is queued for it, or
is about to be scheduled (`scheduled_rendezvous`).
-/

namespace Cxp

open Run

namespace Traffic

variable {N U : Nat} {Chan Msg : Type} [DecidableEq Chan]

/-- Who is scheduled has not been preempted in its window, and who is preempted by a
handler has not been scheduled in its window. -/
def Orderly (sys : Procs N U) (m : Traffic N U Chan Msg) : TrafficAct N U Chan Msg → Prop
  | .sched act => m.sched.Orderly sys act
  | .comm (.run p) => m.sched.Orderly sys (.run p)
  | .comm (.handle π) => m.sched.Orderly sys (.handle π)
  | .comm _ => True

/-- The process has the processor, or is queued for it, or another one is about to
schedule it. -/
def Coming (sys : Procs N U) (s : Sched N U) (p : Fin N) : Prop :=
  s.current (sys.pun p) = p ∨ Queues.Queued sys s.queues p ∨ ∃ u, (s.live u).op = .schedule p

/-- Messages arrive once and in order. -/
structure Carries (net : Net N Chan) (sys : Procs N U) (m : Traffic N U Chan Msg) : Prop where
  /-- what the reader has received was stored for it, and this was passed to `out` -/
  received : ∀ c, m.comm.received c <+: m.comm.stored c
  stored : ∀ c, m.comm.stored c <+: m.comm.outs c
  /-- a call of `out` returns when its message is stored -/
  out_returns : ∀ c, m.comm.outsDone c ≤ (m.comm.stored c).length
  /-- all messages stored but that of the call of `in` in progress are received -/
  in_calls : ∀ c, (m.comm.stored c).length ≤ (m.comm.received c).length + 1
  /-- who goes on where it has given up the processor in `in` or `out` is not registered
  at the channel any more, and has been made Ready -/
  resumes : ∀ p e c, m.comm.pc p = .wait e c → m.sched.Runs sys p →
    switches m.sched p = false →
    m.comm.waiting c ≠ some p ∧ m.sched.sched_state p = .ready

/-- Whoever has been woken comes to go on. -/
structure Serves (net : Net N Chan) (sys : Procs N U) (m : Traffic N U Chan Msg) : Prop where
  /-- when both users wait, one of them has been made Ready and comes to go on -/
  meets : ∀ c, (m.comm.party net c .input).waits = true →
    (m.comm.party net c .output).waits = true →
    ∃ e, m.sched.sched_state (net.role c e) = .ready ∧ Coming sys m.sched (net.role c e)
  /-- so does a select that has been made Ready -/
  selects : ∀ p f, m.comm.pc p = .altWait f → m.sched.alt_state p = .ready →
    Coming sys m.sched p
  /-- a writer at a channel of a select that waits is still to tell it -/
  writers : ∀ p f, m.comm.pc p = .altWait f → m.sched.alt_state p = .waiting →
    ∀ c, Guard.chan c ∈ f.guards → ∀ w, m.comm.waiting c = some w → w ≠ p →
      m.comm.pc w = .free c p ∨ m.comm.pc w = .freeWaiting c p

section Steps

variable {net : Net N Chan} {sys : Procs N U} {m n : Traffic N U Chan Msg} {p q : Fin N}
  {s t : Sched N U}

omit [DecidableEq Chan] in
/-- What a step of a call is for the scheduler is orderly, if `p` schedules nobody who has
been preempted in its window. -/
theorem does_orderly {pc next : Pc N Chan} {a : SchedAct N U} (hdoes : pc.does p next = some a)
    (h : s.Orderly sys (.run p)) : s.Orderly sys a := by
  cases pc with
  | call _ _ | enable _ _ => cases next <;> cases hdoes <;> trivial
  | wake _ _ _ =>
      cases hdoes
      trivial
  | schedule _ _ _ | freeWaiting _ _ | freeSchedule _ _ | relinquish _ _ | wait _ _
  | shouldWait _ | altWait _ | finish _ _ =>
      cases hdoes
      exact h
  | _ => cases hdoes

/-- A step is one of the scheduler, or nothing to it, or a call of `freeProcessMaybe` by
a process that has prepared to wait. -/
theorem step_sched {act : TrafficAct N U Chan Msg} (hstep : m.step net sys act = some n) :
    n.sched = m.sched ∨
      (∃ p q, m.sched.May sys p (· = .prepared) ∧ n.sched = m.sched.free p q) ∨
      ∃ a, m.sched.step sys a = some n.sched ∧ (m.Orderly sys act → m.sched.Orderly sys a) := by
  cases act with
  | sched act =>
      obtain ⟨-, hstep⟩ := Option.ite_none_right_eq_some.mp hstep
      obtain ⟨s, hs, rfl⟩ := Option.map_eq_some_iff.mp hstep
      exact Or.inr (Or.inr ⟨act, hs, fun h => h⟩)
  | comm act =>
      cases act with
      | «in» c | out c msg =>
          obtain ⟨-, hstep⟩ := Option.ite_none_right_eq_some.mp hstep
          obtain ⟨t, -, rfl⟩ := Option.map_eq_some_iff.mp hstep
          exact Or.inl rfl
      | tick δ =>
          change (m.comm.step net sys.pun (.tick δ)).map _ = some n at hstep
          obtain ⟨t, -, rfl⟩ := Option.map_eq_some_iff.mp hstep
          exact Or.inl rfl
      | select p f =>
          obtain ⟨s, hs, hstep⟩ := Option.bind_eq_some_iff.mp hstep
          obtain ⟨t, -, rfl⟩ := Option.map_eq_some_iff.mp hstep
          exact Or.inr (Or.inr ⟨.select p, hs, fun _ => trivial⟩)
      | interrupt π =>
          obtain ⟨s, hs, hstep⟩ := Option.bind_eq_some_iff.mp hstep
          obtain ⟨t, -, rfl⟩ := Option.map_eq_some_iff.mp hstep
          exact Or.inr (Or.inr ⟨.interrupt π .timeout, hs, fun _ => trivial⟩)
      | run p =>
          obtain ⟨-, -, hmoves⟩ := run_moves hstep
          generalize n.sched = u at hmoves
          cases hmoves with
          | frees hpc hmay => exact Or.inr (Or.inl ⟨p, _, hmay, rfl⟩)
          | quiet hfree hdoes hmay => exact Or.inl rfl
          | @acts a t hdoes ha => exact Or.inr (Or.inr ⟨a, ha, does_orderly hdoes⟩)
      | handle π =>
          obtain ⟨t, -, hstep⟩ := Option.bind_eq_some_iff.mp hstep
          have hacts : ∀ s, m.sched.step sys (.handle π) = some s →
              ∃ a, m.sched.step sys a = some s ∧
                (m.Orderly sys (.comm (.handle π)) → m.sched.Orderly sys a) :=
            fun s hs => ⟨.handle π, hs, fun h => h⟩
          split at hstep
          next =>
            split at hstep
            next =>
              obtain ⟨-, hstep⟩ := Option.ite_none_right_eq_some.mp hstep
              obtain ⟨s, hs, rfl⟩ := Option.map_eq_some_iff.mp hstep
              exact Or.inr (Or.inr (hacts s hs))
            next =>
              obtain ⟨-, hn⟩ := Option.ite_none_right_eq_some.mp hstep
              obtain rfl := Option.some.inj hn
              exact Or.inl rfl
          next x now _ =>
            obtain ⟨s, hs, rfl⟩ := Option.map_eq_some_iff.mp hstep
            exact Or.inr (Or.inr ⟨.freeAlting π x.proc, hs, fun _ => trivial⟩)
          next =>
            obtain ⟨-, hstep⟩ := Option.ite_none_right_eq_some.mp hstep
            obtain ⟨s, hs, hstep⟩ := Option.bind_eq_some_iff.mp hstep
            split at hstep
            next =>
              obtain ⟨u, -, rfl⟩ := Option.map_eq_some_iff.mp hstep
              exact Or.inr (Or.inr (hacts s hs))
            next =>
              obtain rfl := Option.some.inj hstep
              exact Or.inr (Or.inr (hacts s hs))
          next => cases hstep

/-- `freeProcessMaybe`, called by a process that has prepared to wait, schedules nobody. -/
theorem free_ledger {size : Nat → Prop} (h : s.Ledger size sys)
    (hmay : s.May sys p (· = .prepared)) : (s.free p q).Ledger size sys := by
  have hcode := hmay.code_eq
  obtain ⟨hruns, hop, -, -⟩ := hmay
  have hseats : (s.free p q).seats sys = s.seats sys := by
    unfold Sched.free
    split <;> rfl
  constructor
  · unfold Sched.free
    split
    next halt => exact (h.altReady halt).sound
    next =>
      exact h.sound.of_live rfl rfl hruns (Sched.inside_doing.trans hruns.2)
        (fun _ => Sched.live_doing_ne) fun _ _ => rfl
    next => exact h.sound
  · rw [hseats]
    unfold Sched.free
    split
    next halt => exact h.books.altReady halt
    next =>
      exact h.books.does (by simp) (by simp [hop]) (fun _ _ => by rw [hcode]; rfl)
        (by simp [hcode])
    next => exact h.books

/-- **Every orderly step keeps the books.** -/
theorem step_ledger {act : TrafficAct N U Chan Msg} (h : m.sched.Ledger (fun _ => True) sys)
    (hC : m.Orderly sys act) (hstep : m.step net sys act = some n) :
    n.sched.Ledger (fun _ => True) sys := by
  obtain heq | ⟨p, q, hmay, heq⟩ | ⟨a, ha, horderly⟩ := step_sched hstep
  · rw [heq]
    exact h
  · rw [heq]
    exact free_ledger h hmay
  · exact h.step (horderly hC) (fun _ _ _ _ => trivial) ha

omit [DecidableEq Chan] in
/-- Who has been made Ready comes to go on. -/
theorem coming_of_awakened (h : m.sched.Ledger (fun _ => True) sys) (hp : m.sched.Awakened p) :
    Coming sys m.sched p := by
  by_cases hcalls : ∃ u, (m.sched.live u).op = .schedule p
  · exact Or.inr (Or.inr hcalls)
  · have hawake := h.awake hp (not_exists.mp hcalls)
    exact hawake.imp_right Or.inl

end Steps

section Results

variable {net : Net N Chan} {sys : Procs N U} {m n : Traffic N U Chan Msg} {p q : Fin N}

/-- A party that waits and has been made Ready has been woken for the scheduler. -/
theorem Joined.party_awakened (h : Joined net sys m) {e : End} {c : Chan}
    (hwaits : (m.comm.party net c e).waits = true)
    (hready : m.comm.sched_state (net.role c e) = .ready) :
    m.sched.sched_state (net.role c e) = .ready ∧ m.sched.Awakened (net.role c e) := by
  obtain ⟨b, hshow, -⟩ := Comm.party_waits hwaits
  have hprep : (m.comm.pc (net.role c e)).prepared = true :=
    Pc.party_wait (hshow (m.comm.dest (net.role c e)) .ready true)
  have hstate : m.sched.sched_state (net.role c e) = .ready :=
    (h.sched_state _ hprep).trans hready
  refine ⟨hstate, ?_⟩
  have hplace := (h.place (net.role c e)).1
  unfold Sched.Awakened
  cases hpc : m.comm.pc (net.role c e) with
  | wait _ _ =>
      rw [hpc] at hplace
      obtain hcode | hcode := hplace <;> rw [hcode] <;> exact hstate
  | free _ _ | freeWaiting _ _ | freeSchedule _ _ | relinquish _ _ =>
      rw [hpc] at hplace
      have hcode : (m.sched.live (net.role c e)).code = .prepared := hplace
      rw [hcode]
      exact hstate
  | _ =>
      rw [hpc] at hprep
      cases hprep

/-- Who goes on in `in` or `out` has been woken, and is not registered any more. -/
theorem Joined.resumed {e : End} {c : Chan} (h : Joined net sys m)
    (hpc : m.comm.pc p = .wait e c) (hruns : m.sched.Runs sys p)
    (hswitches : switches m.sched p = false) :
    m.comm.waiting c ≠ some p ∧ m.sched.sched_state p = .ready := by
  have hplace := (h.place p).1
  rw [hpc] at hplace
  have hcode := hplace.resolve_left ((not_switches hswitches).2 _)
  obtain ⟨-, hmet⟩ := h.dispatched hruns hcode
  have hready : m.sched.sched_state p = .ready := of_decide_eq_true hmet
  refine ⟨?_, hready⟩
  have hp := (h.inv.roles p).channel e c (by rw [hpc]; rfl)
  have hparty : m.comm.party net c e = .wait (m.comm.buf e p) true .ready true := by
    have hstate : m.comm.sched_state p = .ready := by
      rw [← h.sched_state p (by rw [hpc]; rfl)]
      exact hready
    simp [Comm.party, ← hp, hpc, Pc.party, hstate, h.runnable hruns hswitches]
  have hwaiter := party_waiter h.inv c e
  rw [hparty, ← hp] at hwaiter
  exact (hwaiter.woken (Or.inr ⟨rfl, rfl⟩)).1

theorem Joined.carries (h : Joined net sys m) : Carries net sys m where
  received c := (h.inv.delivers c).received
  stored c := (h.inv.delivers c).stored
  out_returns c := (h.inv.delivers c).out_returns
  in_calls c := (h.inv.delivers c).in_calls
  resumes _ _ _ hpc hruns hswitches := h.resumed hpc hruns hswitches

/-- **Of two users that wait one comes to go on**, and so does a select that has been
made Ready. -/
theorem Joined.serves (h : Joined net sys m) (hl : m.sched.Ledger (fun _ => True) sys) :
    Serves net sys m where
  meets c hin hout := by
    obtain ⟨e, hready, -⟩ := (h.inv.delivers c).progress hin hout
    have hwaits : (m.comm.party net c e).waits = true := by
      cases e
      · exact hin
      · exact hout
    obtain ⟨hstate, hawake⟩ := h.party_awakened hwaits hready
    exact ⟨e, hstate, coming_of_awakened hl hawake⟩
  selects p f hpc hready := by
    apply coming_of_awakened hl
    have hplace := (h.place p).1
    rw [hpc] at hplace
    unfold Sched.Awakened
    obtain hcode | hcode := hplace <;> rw [hcode] <;> exact hready
  writers p f hpc hwaiting c hc w hw hne := by
    apply (h.inv.woken p).writers _ f f.size _ c hc w hw hne
    · rw [← h.alt_state]
      exact hwaiting
    · rw [hpc]
      rfl

end Results

end Traffic

end Cxp
