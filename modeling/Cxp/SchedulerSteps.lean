import Cxp.SchedulerInvariant

/-!
# Every orderly step keeps the books

The wakeups that processes and handlers issue, the handlers' steps and the par
constructs, and from them the step lemma (`Ledger.step`).
-/

namespace Cxp

open Queues

namespace Sched

variable {N U : Nat} {sys : Procs N U} {s t : Sched N U} {p q u : Fin N} {π : Fin U}
  {size : Nat → Prop} {seat seat' : Fin N → Nat}

section Wakeups

/-- An alternating process that is Waiting is in a wait, and freeing it wakes
it. -/
theorem alt_wakes (hstate : StateOk (s.live q).code (s.sched_state q) (s.alt_state q))
    (halt : s.alt_state q = .waiting) :
    s.woken q = 0 ∧ (s.altReady q).woken q = 1 ∧
      StateOk (s.live q).code (s.sched_state q) .ready := by
  have hcode : (s.live q).code = .relinquish .alt ∨ (s.live q).code = .switched .alt := by
    rw [halt] at hstate
    cases hc : (s.live q).code with
    | relinquish w => cases w <;> simp_all [StateOk]
    | switched w => cases w <;> simp_all [StateOk]
    | _ => simp_all [StateOk]
  rcases hcode with hc | hc <;>
    simp [woken, altReady, hc, Code.awaits, met, halt, StateOk]

/-- One that is enabling is not. -/
theorem alt_spares (hstate : StateOk (s.live q).code (s.sched_state q) (s.alt_state q))
    (halt : s.alt_state q = .enabling) :
    (s.altReady q).woken q = s.woken q ∧
      StateOk (s.live q).code (s.sched_state q) .ready := by
  rw [halt] at hstate
  have hawaits : (s.live q).code.awaits ≠ some .alt := by
    cases hc : (s.live q).code with
    | relinquish w => cases w <;> simp_all [StateOk, Code.awaits]
    | switched w => cases w <;> simp_all [StateOk, Code.awaits]
    | _ => simp [Code.awaits]
  constructor
  · unfold woken
    have hlive : (s.altReady q).live q = s.live q := rfl
    rw [hlive]
    cases haw : (s.live q).code.awaits with
    | none => rfl
    | some w =>
        cases w with
        | alt => exact absurd haw hawaits
        | _ => rfl
  · cases hc : (s.live q).code with
    | relinquish w => cases w <;> simp_all [StateOk]
    | switched w => cases w <;> simp_all [StateOk]
    | _ => simp_all [StateOk]

/-- To make a process Ready that was Waiting wakes it. -/
theorem sched_wakes (hstate : StateOk (s.live q).code (s.sched_state q) (s.alt_state q))
    (hwaits : (s.live q).code.waits = true) (hsched : s.sched_state q = .waiting) :
    s.woken q = 0 ∧ (s.ready q).woken q = 1 ∧
      StateOk (s.live q).code .ready (s.alt_state q) := by
  rw [hsched] at hstate
  have hcode : (s.live q).code = .relinquish .sched ∨ (s.live q).code = .switched .sched := by
    cases hc : (s.live q).code with
    | relinquish w => cases w <;> simp_all [Code.waits]
    | switched w => cases w <;> simp_all [Code.waits]
    | _ => simp_all [StateOk, Code.waits]
  rcases hcode with hc | hc <;> rw [hc] at hstate <;>
    simp_all [woken, ready, Code.awaits, met, StateOk]

/-- One that was not Waiting need not wait, or has been woken before. -/
theorem sched_spares (hstate : StateOk (s.live q).code (s.sched_state q) (s.alt_state q))
    (hwaits : (s.live q).code.waits = true) (hsched : s.sched_state q ≠ .waiting) :
    (s.ready q).woken q = s.woken q ∧
      StateOk (s.live q).code .ready (s.alt_state q) := by
  have hready : (s.live q).code = .prepared ∨
      ((s.live q).code = .relinquish .sched ∨ (s.live q).code = .switched .sched) ∧
        s.sched_state q = .ready := by
    cases hc : (s.live q).code with
    | prepared => exact Or.inl rfl
    | relinquish w =>
        cases w <;> cases hs : s.sched_state q <;> simp_all [Code.waits, StateOk]
    | switched w =>
        cases w <;> cases hs : s.sched_state q <;> simp_all [Code.waits, StateOk]
    | _ => simp_all [Code.waits]
  rcases hready with hc | ⟨hc | hc, hr⟩ <;> rw [hc] at hstate <;>
    simp_all [woken, ready, Code.awaits, met, StateOk]

/-- `wake`. -/
theorem Books.wake (h : Books size seat s) (hop : (s.live p).op = .none)
    (hcode : (s.live p).code = .own) (hwaits : (s.live q).code.waits = true) :
    Books size seat (s.wake p q) := by
  unfold Sched.wake
  have hother : ∀ x, x ≠ q → Function.update s.sched_state q .ready x = s.sched_state x :=
    fun x hx => Function.update_of_ne hx _ _
  split
  next hsched =>
    obtain ⟨hw, hw', hok⟩ := sched_wakes (h.state q) hwaits hsched
    refine h.begins (g := s.alt_state) (by simp [hcode]) (by simp [hop]) (by rw [hcode]; rfl)
      hother (fun _ _ => rfl) hw hw' ?_
    rw [Function.update_self]
    exact hok
  next hsched =>
    obtain ⟨hw, hok⟩ := sched_spares (h.state q) hwaits hsched
    refine h.spares (g := s.alt_state) hother (fun _ _ => rfl) hw ?_
    rw [Function.update_self]
    exact hok

theorem Ledger.wake (h : Ledger size sys s) (hruns : s.Runs sys p)
    (hop : (s.live p).op = .none) (hcode : (s.live p).code = .own)
    (hwaits : (s.live q).code.waits = true) : Ledger size sys (s.wake p q) := by
  have hseats : (s.wake p q).seats sys = s.seats sys := by
    unfold Sched.wake
    split <;> rfl
  refine ⟨?_, hseats ▸ h.books.wake hop hcode hwaits⟩
  unfold Sched.wake
  split
  next =>
    exact h.sound.of_live rfl rfl hruns (inside_doing.trans hruns.2) (fun _ => live_doing_ne)
      fun _ _ => rfl
  next => exact ⟨h.sound.lined, h.sound.kept, h.sound.pun, h.sound.saved⟩

theorem Books.altReady (h : Books size seat s) (halt : s.alt_state q = .enabling) :
    Books size seat (s.altReady q) := by
  obtain ⟨hw, hok⟩ := alt_spares (h.state q) halt
  refine h.spares (f := s.sched_state) (fun _ _ => rfl)
    (fun x hx => Function.update_of_ne hx _ _) hw ?_
  rw [Function.update_self]
  exact hok

theorem Ledger.altReady (h : Ledger size sys s) (halt : s.alt_state q = .enabling) :
    Ledger size sys (s.altReady q) :=
  ⟨⟨h.sound.lined, h.sound.kept, h.sound.pun, h.sound.saved⟩, h.books.altReady halt⟩

/-- The first attempt of `freeProcessMaybe`. -/
theorem Books.free (h : Books size seat s) (hop : (s.live p).op = .none)
    (hcode : (s.live p).code = .own) : Books size seat (s.free p q) := by
  unfold Sched.free
  split
  next halt => exact h.altReady halt
  next =>
    exact h.does (by simp) (by simp [hop]) (fun _ _ => by rw [hcode]; rfl) (by simp [hcode])
  next => exact h

theorem Ledger.free (h : Ledger size sys s) (hruns : s.Runs sys p)
    (hop : (s.live p).op = .none) (hcode : (s.live p).code = .own) :
    Ledger size sys (s.free p q) := by
  have hseats : (s.free p q).seats sys = s.seats sys := by
    unfold Sched.free
    split <;> rfl
  refine ⟨?_, hseats ▸ h.books.free hop hcode⟩
  unfold Sched.free
  split
  next halt => exact (h.altReady halt).sound
  next =>
    exact h.sound.of_live rfl rfl hruns (inside_doing.trans hruns.2) (fun _ => live_doing_ne)
      fun _ _ => rfl
  next => exact h.sound

/-- The second attempt of `freeProcessMaybe`. -/
theorem Books.freeWaiting (h : Books size seat s) (hborn : (s.live p).code ≠ .unborn)
    (hop : (s.live p).op = .freeWaiting q) (halt : s.alt_state q = .waiting) :
    Books size seat ((s.altReady q).doing p (.schedule q)) := by
  obtain ⟨hw, hw', hok⟩ := alt_wakes (h.state q) halt
  refine h.begins (f := s.sched_state) hborn (by simp [hop]) (h.waking p q (Or.inl hop))
    (fun _ _ => rfl) (fun x hx => Function.update_of_ne hx _ _) hw hw' ?_
  rw [Function.update_self]
  exact hok

theorem Ledger.freeWaiting (h : Ledger size sys s) (hruns : s.Runs sys p)
    (hop : (s.live p).op = .freeWaiting q) (halt : s.alt_state q = .waiting) :
    Ledger size sys ((s.altReady q).doing p (.schedule q)) :=
  ⟨h.sound.of_live rfl rfl hruns (inside_doing.trans hruns.2) (fun _ => live_doing_ne)
      fun _ _ => rfl,
    h.books.freeWaiting (h.born hruns.1) hop halt⟩

/-- What a handler does for a process that waits in `After` or `receive`. -/
theorem Ledger.freeProcess (h : Ledger size sys s) (hwaits : (s.live q).code.waits = true)
    (hq : s.sched_state q = .waiting → s.Undisturbed sys q)
    (hstep : s.freeProcess sys q = some t) : Ledger size sys t := by
  unfold Sched.freeProcess at hstep
  have hother : ∀ x, x ≠ q → Function.update s.sched_state q .ready x = s.sched_state x :=
    fun x hx => Function.update_of_ne hx _ _
  split at hstep
  next hsched =>
    obtain ⟨hw, hw', hok⟩ := sched_wakes (h.books.state q) hwaits hsched
    refine h.frees (g := s.alt_state) hother (fun _ _ => rfl) hw hw' ?_ (hq hsched) hstep
    rw [Function.update_self]
    exact hok
  next hsched =>
    obtain rfl := Option.some.inj hstep
    obtain ⟨hw, hok⟩ := sched_spares (h.books.state q) hwaits hsched
    refine h.spares (g := s.alt_state) hother (fun _ _ => rfl) hw ?_
    rw [Function.update_self]
    exact hok

end Wakeups

section Handlers

/-- The progress of a handler is no change to anyone's code. -/
theorem handling_same (s : Sched N U) (p : Fin N) (i : Option (Handler N)) :
    Same s (s.handling p i) := by
  have hlive : ∀ x, ((s.handling p i).live x).code = (s.live x).code ∧
      ((s.handling p i).live x).op = (s.live x).op := by
    intro x
    by_cases hx : x = p
    · simp [handling, hx]
    · simp [handling, hx]
  exact ⟨fun x => (hlive x).1, fun x => (hlive x).2, rfl, rfl, rfl, rfl⟩

theorem Ledger.handling (h : Ledger size sys s) (hin : (s.live p).inside ≠ none) (i : Option (Handler N)) :
    Ledger size sys (s.handling p i) := by
  have hsame := handling_same s p i
  refine h.same ⟨h.sound.lined, h.sound.kept, h.sound.pun, fun x hx => ?_⟩ hsame
    fun _ => rfl
  rw [hsame.code, hsame.op]
  apply h.sound.saved x
  by_cases hxp : x = p
  · exact Or.inr (hxp ▸ hin)
  · simpa [Sched.handling, hxp] using hx

/-- An interrupt is taken: the context of the interrupted process is saved. -/
theorem Ledger.interrupt {i : Option (Handler N)} (h : Ledger size sys s) :
    Ledger size sys ({ s with
      stackptr := Function.update s.stackptr p (s.live p)
      swapped := Function.update s.swapped p false }.handling p i) := by
  set s' : Sched N U := { s with
    stackptr := Function.update s.stackptr p (s.live p)
    swapped := Function.update s.swapped p false }
  have hsame : Same s (s'.handling p i) := by
    have hs := handling_same s' p i
    exact ⟨hs.code, hs.op, rfl, rfl, rfl, rfl⟩
  refine h.same ⟨h.sound.lined, h.sound.kept, h.sound.pun, fun x hx => ?_⟩ hsame
    fun _ => rfl
  rw [hsame.code, hsame.op]
  by_cases hxp : x = p
  · simp [s', Sched.handling, hxp]
  · have hsaved := h.sound.saved x (by simpa [s', Sched.handling, hxp] using hx)
    simpa [s', Sched.handling, hxp] using hsaved

theorem Ledger.freeAlting (h : Ledger size sys s) (hin : (s.live p).inside ≠ none) :
    Ledger size sys (s.freeAlting p q) := by
  unfold Sched.freeAlting
  split
  next halt => exact h.altReady halt
  next => exact h.handling hin _
  next => exact h

theorem Undisturbed.handling (h : s.Undisturbed sys q) (p : Fin N) (i : Option (Handler N)) :
    (s.handling p i).Undisturbed sys q := by
  unfold Undisturbed
  rw [(handling_same s p i).code]
  exact h

/-- A step of a handler, the process it has interrupted being `p`. -/
theorem Ledger.handle {hd : Handler N} (h : Ledger size sys s) (hcur : s.current π = p)
    (hin : (s.live p).inside = some hd)
    (hwake : ∀ q, hd = .freeWaiting q → s.alt_state q = .waiting → s.Undisturbed sys q)
    (hpre : s.Preempts sys π → s.Unscheduled p)
    (hstep : s.handle sys π p hd = some t) : Ledger size sys t := by
  have hp : s.current (sys.pun p) = p := current_pun h.sound.pun hcur
  have hin' : (s.live p).inside ≠ none := by rw [hin]; simp
  have hinside : s.Inside π hd := by rw [Inside, hcur]; exact hin
  cases hd with
  | timeout | user | exit =>
      obtain rfl := Option.some.inj hstep
      exact h.handling hin' _
  | freeWaiting q =>
      have hl := h.handling hin' (some .timeout)
      simp only [Sched.handle] at hstep
      split at hstep
      next halt =>
        have halt' : s.alt_state q = .waiting := halt
        obtain ⟨hw, hw', hok⟩ := alt_wakes (hl.books.state q) halt
        refine hl.frees (f := s.sched_state) (fun _ _ => rfl)
          (fun x hx => Function.update_of_ne hx _ _) hw hw' ?_
          ((hwake q rfl halt').handling p _) hstep
        rw [Function.update_self]
        exact hok
      next =>
        obtain rfl := Option.some.inj hstep
        exact hl
  | interproc =>
      simp only [Sched.handle] at hstep
      split at hstep
      next =>
        obtain rfl := Option.some.inj hstep
        exact h.handling hin' _
      next proc queues hrem =>
        -- the process is queued all the time, or dispatched
        obtain ⟨hr, hpun, hipq⟩ := h.sound.lined.ipq_remove hrem
        have hs : Sound sys { s with queues := queues } :=
          ⟨hr.lined, hr.kept.trans h.sound.kept, h.sound.pun, h.sound.saved⟩
        have hout : ¬Queued sys queues proc := fun hq => ((hr.queued proc).mp hq).2 rfl
        have hcurr : pri_le (sys.pri proc) (sys.pri (s.current π)) = false →
            sys.pun proc = π → ¬Queued sys queues (s.current π) := by
          intro hle _ hq
          have hpreempts : s.Preempts sys π := Or.inr ⟨hinside, proc, _, hipq, hle⟩
          rw [hcur] at hq
          exact h.not_queued_of_unscheduled hp (hpre hpreempts) ((hr.queued p).mp hq).1
        obtain ⟨hsound, hsame, hseats⟩ := hs.schedule0 hout hcurr hstep
        have hmoved : Ledger size sys t := by
          refine h.same hsound ⟨hsame.code, hsame.op, hsame.sched_state, hsame.alt_state,
            hsame.children, hsame.parent⟩ fun x => ?_
          rw [hseats]
          exact seats_removes hr x
        exact hmoved
  | preempt again =>
      simp only [Sched.handle] at hstep
      have hl := h.handling hin' (some (if again then .preempt false else .exit))
      have hcurr : (s.handling p (some (if again then .preempt false else .exit))).outranked
          sys π → ¬Queued sys s.queues (s.current π) := by
        intro hout
        rw [hcur]
        exact h.not_queued_of_unscheduled hp (hpre (Or.inl ⟨⟨again, hinside⟩, hout⟩))
      have hin'' : ((s.handling p (some (if again then .preempt false else .exit))).live
          (s.current π)).inside ≠ none := by
        rw [hcur]
        simp [Sched.handling]
      obtain ⟨hsound, hsame, hseats⟩ := hl.sound.schedule_from_interrupt hin'' hcurr hstep
      exact hl.same hsound hsame hseats

end Handlers

section Families

/-- A child is built and readied. -/
theorem Ledger.build {c : Fin N} {kind : ParKind} {nc left : Nat} (h : Ledger size sys s)
    (hruns : s.Runs sys p) (hop : (s.live p).op = .none)
    (hcode : (s.live p).code = .par kind nc (left + 1)) (hc : (s.live c).code = .unborn)
    (hstep : ((s.make_process p c).goto p (.par kind nc left)).enqueue sys p c = some t) :
    Ledger size sys t := by
  have hcp : c ≠ p := by
    intro hcp
    rw [hcp, hcode] at hc
    cases hc
  have hseat : s.seats sys c = 0 := by
    have hbal := h.books.balanced c
    rw [woken_none (s := s) (by rw [hc]; rfl), hc] at hbal
    simp only [Code.base] at hbal
    omega
  have hout : ¬Queued sys s.queues c := by
    intro hq
    simp [seats, hq] at hseat
  set s' := (s.make_process p c).goto p (.par kind nc left) with hs'
  have hsound : Sound sys s' := by
    refine ⟨h.sound.lined, h.sound.kept, h.sound.pun, fun x hx => ?_⟩
    by_cases hxc : x = c
    · simp [hs', goto, make_process, hxc, hcp]
    · have hxp : x ≠ p := by
        intro hxp
        subst hxp
        rcases hx with hx | hx
        · exact hx hruns.1
        · simp [hs', goto, make_process, hxc, hruns.2] at hx
      have hsaved := h.sound.saved x (by simpa [hs', goto, make_process, hxc, hxp] using hx)
      simpa [hs', goto, make_process, hxc, hxp] using hsaved
  have hspec : Sound sys t ∧ Same s' t ∧
      ∀ x, t.seats sys x = s'.seats sys x + if x = c then 1 else 0 := by
    unfold Sched.enqueue at hstep
    split at hstep
    next =>
      obtain ⟨t', ht', hst, hsame, -, -, -, hseats⟩ := hsound.enqueue0 hout
      obtain rfl := Option.some.inj (ht'.symm.trans hstep)
      exact ⟨hst, hsame, hseats⟩
    next hpun => exact hsound.schedule0 hout (fun _ heq => absurd heq hpun) hstep
  exact ⟨hspec.1, (h.books.build hcode hop hc hspec.2.2).same hspec.2.1⟩

theorem Ledger.sync {r : Fin N} (h : Ledger size sys s) (hruns : s.Runs sys p)
    (hop : (s.live p).op = .none) (hcode : (s.live p).code = .own)
    (hparent : s.parent p = some r) : Ledger size sys (s.par_barr_sync p r) := by
  obtain ⟨hlive, hp, -⟩ := par_barr_sync_fields s p r
  have hfields : (s.par_barr_sync p r).queues = s.queues ∧
      (s.par_barr_sync p r).current = s.current ∧
      (s.par_barr_sync p r).stackptr = s.stackptr := by
    unfold par_barr_sync
    dsimp only
    split <;> exact ⟨rfl, rfl, rfl⟩
  refine ⟨h.sound.of_live hfields.1 hfields.2.1 hruns (by rw [hp]; exact hruns.2) hlive
    fun x _ => by rw [hfields.2.2], ?_⟩
  rw [seats_congr hfields.1 hfields.2.1]
  exact h.books.sync hcode hop hparent

end Families

/-- The next step of a process in what it is in. -/
theorem Ledger.run (h : Ledger size sys s) (hruns : s.Runs sys p)
    (hq : ∀ q, (s.live p).op = .schedule q → s.Undisturbed sys q)
    (hstep : s.run sys p = some t) : Ledger size sys t := by
  have hborn := h.born hruns.1
  have hok := h.books.state p
  have hother : ∀ {α : Type} (f : Fin N → α) (a : α) (x : Fin N), x ≠ p →
      Function.update f p a x = f x := fun f a x hx => Function.update_of_ne hx _ _
  cases run_cases hstep with
  | frees hop halt => exact h.freeWaiting hruns hop halt
  | freed hop halt => exact h.does hruns (by simp) (by simp [hop]) (by simp) hborn
  | @schedule q t hop hschedule => exact h.schedules hruns hop (hq q hop) hschedule
  | enable hop => exact h.does hruns (by simp) (by simp [hop]) (by simp) hborn
  | waits hop hcode hstate =>
      rw [hcode] at hok
      refine h.goes (g := s.alt_state) hruns hop (hcode ▸ plain_prepared) rfl rfl rfl
        (by simp) (hother _ _) (fun _ _ => rfl) ?_ ?_
      · intro w hw
        cases hw
        simp [met]
      · simpa [StateOk] using hok.2
  | woken hop hcode hstate =>
      rw [hcode] at hok
      exact h.goes (f := s.sched_state) (g := s.alt_state) hruns hop
        (hcode ▸ plain_prepared) rfl rfl rfl (by simp) (fun _ _ => rfl)
        (fun _ _ => rfl) (by simp [Code.awaits]) hok.2
  | altWaits hop hcode halt =>
      refine h.goes (f := s.sched_state) hruns hop (hcode ▸ plain_enabling) rfl rfl rfl
        (by simp) (fun _ _ => rfl) (hother _ _) ?_ ?_
      · intro w hw
        cases hw
        simp [met]
      · simp [StateOk]
  | altReady hop hcode halt =>
      rw [hcode] at hok
      exact h.goes (f := s.sched_state) (g := s.alt_state) hruns hop
        (hcode ▸ plain_enabling) rfl rfl rfl (by simp) (fun _ _ => rfl)
        (fun _ _ => rfl) (by simp [Code.awaits]) hok
  | disabling hop hcode =>
      exact h.goes (f := s.sched_state) hruns hop (hcode ▸ plain_disabling) rfl rfl rfl
        (by simp) (fun _ _ => rfl) (hother _ _) (by simp [Code.awaits]) (by simp [StateOk])
  | parWaits hop hcode hstate => exact h.par_waits hruns hop hcode
  | parWoken hop hcode hstate =>
      rw [hcode] at hok
      exact absurd hok.1 hstate
  | relinquish hop hcode hrelinquish => exact h.relinquish hruns hop hcode hrelinquish
  | switched hop hcode => exact h.resumes hruns hop hcode
  | ending hop hcode => exact h.ends hruns hop hcode
  | finishing hop hcode hfinish => exact h.terminates hruns hop hcode hfinish

/-- **Every orderly step keeps the books.** -/
theorem Ledger.step {act : SchedAct N U} (h : Ledger size sys s) (hC : s.Orderly sys act)
    (hsize : ∀ p kind nc, act = .par p kind nc → size nc)
    (hstep : s.step sys act = some t) : Ledger size sys t := by
  have hother : ∀ {α : Type} (f : Fin N → α) (p : Fin N) (a : α) (x : Fin N), x ≠ p →
      Function.update f p a x = f x := fun f p a x hx => Function.update_of_ne hx _ _
  cases step_cases hstep with
  | @prepare p hmay =>
      have hcode := hmay.code_eq
      have hstate := h.books.state p
      rw [hcode] at hstate
      refine h.goes (g := s.alt_state) hmay.1 hmay.2.1 (hcode ▸ plain_own) rfl rfl rfl (by simp)
        (hother _ _ _) (fun _ _ => rfl) (by simp [Code.awaits]) ?_
      exact ⟨by simp, hstate⟩
  | select hmay =>
      exact h.goes (f := s.sched_state) hmay.1 hmay.2.1 (hmay.code_eq ▸ plain_own) rfl rfl rfl
        (by simp) (fun _ _ => rfl) (hother _ _ _) (by simp [Code.awaits]) (by simp [StateOk])
  | @found p hmay =>
      have hcode := hmay.code_eq
      have hstate := h.books.state p
      rw [hcode] at hstate
      exact h.goes (f := s.sched_state) (g := s.alt_state) hmay.1 hmay.2.1
        (hcode ▸ plain_enabling) rfl rfl rfl (by simp) (fun _ _ => rfl) (fun _ _ => rfl)
        (by simp [Code.awaits]) hstate
  | @par p kind nc hmay haccepts =>
      exact Ledger.par (hsize p kind nc rfl) h hmay.1 hmay.2.1 hmay.code_eq
  | build hcode hmay hunborn hpri hpun henqueue =>
      exact h.build hmay.1 hmay.2.1 hcode hunborn henqueue
  | wake hmay hwaits => exact h.wake hmay.1 hmay.2.1 hmay.code_eq hwaits
  | free hmay => exact h.free hmay.1 hmay.2.1 hmay.code_eq
  | yield hmay hyield => exact h.yield hmay.1 hmay.2.1 hmay.2.2.1 hyield
  | sync hmay hparent => exact h.sync hmay.1 hmay.2.1 hmay.code_eq hparent
  | run hruns hrun => exact h.run hruns hC hrun
  | interrupt hinside henabled => exact h.interrupt
  | timeout hpun hwaits hinside hfree => exact h.freeProcess hwaits hC hfree
  | @transmit π q t hpun hwaits hinside hfree =>
      have hl := h.handling hinside.ne_none (some (.preempt (s.sched_state q = .waiting)))
      refine hl.freeProcess ?_ (fun hw => (hC hw).handling _ _) hfree
      rw [(handling_same _ _ _).code]
      exact hwaits
  | freeAlting hpun hinside => exact h.freeAlting hinside.ne_none
  | @handle π i t hinside hhandle =>
      refine h.handle rfl hinside ?_ hC.2 hhandle
      intro q hq hw
      exact hC.1 q (by rw [Inside, hinside, hq]) hw

end Sched

end Cxp
