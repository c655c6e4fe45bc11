import Cxp.ContextSwitch
import Cxp.ProcessorSwitch
import Cxp.SchedulerSeats

/-!
# Where processes stand in their code

As long as what is saved for a process that does not run is where it stands, a
step moves nobody in its code but the process that takes it, and a child that it
builds (`Settled.others`).  That process goes on existing, unless it makes the
last step of its termination (`Settled.actor`); and where it comes to be about to
schedule another one, that one has been woken or freed, or is its parent
(`Settled.engages`).
-/

namespace Cxp

variable {N U : Nat}

/-- The process whose own step it is. -/
def SchedAct.actor : SchedAct N U → Option (Fin N)
  | .prepare p | .select p | .found p | .par p _ _ | .build p _ | .wake p _ | .free p _
  | .yield p | .sync p | .run p => some p
  | .interrupt _ _ | .freeProcess _ _ | .freeAlting _ _ | .handle _ => none

/-- It is not a step of the process, and leaves its `sched_state` alone. -/
def SchedAct.spares (act : SchedAct N U) (p : Fin N) : Bool :=
  act.actor ≠ some p && act.marks ≠ some p

namespace Sched

/-- What is saved for a process that does not run is where it stands. -/
def Settled (sys : Procs N U) (s : Sched N U) : Prop :=
  ∀ p, s.current (sys.pun p) ≠ p ∨ (s.live p).inside ≠ none →
    (s.stackptr p).code = (s.live p).code ∧ (s.stackptr p).op = (s.live p).op

/-- The process stands where it stood in its code. -/
def Stands (s t : Sched N U) (p : Fin N) : Prop :=
  (t.live p).code = (s.live p).code ∧ (t.live p).op = (s.live p).op

/-- The process makes the last step of its termination. -/
def Ends (s : Sched N U) (act : SchedAct N U) (p : Fin N) : Prop :=
  act = .run p ∧ (s.live p).op = .none ∧ (s.live p).code = .finishing

/-- The step makes `u` one that is about to schedule `q`. -/
def Engages (s : Sched N U) (act : SchedAct N U) (u q : Fin N) : Prop :=
  act = .wake u q ∨ (act = .run u ∧ (s.live u).op = .freeWaiting q ∧ s.alt_state q = .waiting) ∨
    act = .sync u ∧ s.parent u = some q

variable {sys : Procs N U} {s t u : Sched N U} {act : SchedAct N U} {π : Fin U}
  {p q x new proc : Fin N} {saves : Bool}

section Functions

theorem Stands.refl (s : Sched N U) (p : Fin N) : Stands s s p :=
  ⟨rfl, rfl⟩

theorem Stands.trans (h : Stands s t p) (h' : Stands t u p) : Stands s u p :=
  ⟨h'.1.trans h.1, h'.2.trans h.2⟩

theorem stands_of_live (h : t.live = s.live) : Stands s t p := by
  unfold Stands
  rw [h]
  exact ⟨rfl, rfl⟩

theorem stands_goto (hx : x ≠ p) (code : Code) : Stands s (s.goto p code) x := by
  simp [Stands, goto, hx]

theorem stands_doing (hx : x ≠ p) (op : Op N) : Stands s (s.doing p op) x := by
  simp [Stands, doing, hx]

theorem stands_handling (i : Option (Handler N)) : Stands s (s.handling p i) x := by
  by_cases hx : x = p
  · subst hx
    simp [Stands, handling]
  · simp [Stands, handling, hx]

/-- What is saved for a process of the same processor that does not run. -/
theorem Settled.other (h : s.Settled sys) (hnew : sys.pun new = π)
    (hne : new ≠ s.current π) :
    (s.stackptr new).code = (s.live new).code ∧ (s.stackptr new).op = (s.live new).op := by
  apply h
  left
  rw [hnew]
  exact Ne.symm hne

/-- What is saved for the process that is given the processor is where it stands. -/
theorem Hands.restored (h : Hands sys π new saves s t) (hs : s.Settled sys)
    (hold : saves = false → (s.stackptr (s.current π)).code = (s.live (s.current π)).code ∧
      (s.stackptr (s.current π)).op = (s.live (s.current π)).op) :
    (t.stackptr new).code = (s.live new).code ∧ (t.stackptr new).op = (s.live new).op := by
  by_cases hne : new = s.current π
  · rw [h.stackptr]
    cases saves with
    | false =>
        rw [hne]
        exact hold rfl
    | true =>
        rw [if_pos rfl, hne, Function.update_self]
        exact ⟨rfl, rfl⟩
  · rw [h.stackptr_of_ne hne]
    exact hs.other h.pun hne

/-- Nobody stands elsewhere in its code after a switch. -/
theorem Hands.stands (h : Hands sys π new saves s t) (hs : s.Settled sys)
    (hold : saves = false → (s.stackptr (s.current π)).code = (s.live (s.current π)).code ∧
      (s.stackptr (s.current π)).op = (s.live (s.current π)).op) (x : Fin N) : Stands s t x := by
  unfold Stands
  by_cases hx : x = new
  · rw [hx, h.live_eq]
    exact h.restored hs hold
  · rw [h.live_of_ne hx]
    exact ⟨rfl, rfl⟩

theorem Hands.same (h : Hands sys π new saves s t) (hs : s.Settled sys)
    (hold : saves = false → (s.stackptr (s.current π)).code = (s.live (s.current π)).code ∧
      (s.stackptr (s.current π)).op = (s.live (s.current π)).op) : Same s t :=
  ⟨fun x => (h.stands hs hold x).1, fun x => (h.stands hs hold x).2, h.sched_state, h.alt_state,
    h.children, h.parent⟩

theorem Hands.settled (h : Hands sys π new saves s t) (hs : s.Settled sys)
    (hold : saves = false → (s.stackptr (s.current π)).code = (s.live (s.current π)).code ∧
      (s.stackptr (s.current π)).op = (s.live (s.current π)).op) : t.Settled sys := by
  intro x hx
  by_cases hxn : x = new
  · rw [hxn, h.live_eq]
    exact ⟨rfl, rfl⟩
  rw [h.live_of_ne hxn] at hx ⊢
  by_cases hxo : x = s.current π
  · rw [hxo, h.stackptr]
    cases saves with
    | false => exact hold rfl
    | true =>
        rw [if_pos rfl, Function.update_self]
        exact ⟨rfl, rfl⟩
  · rw [h.stackptr_of_ne hxo]
    by_cases hxπ : sys.pun x = π
    · exact hs.other hxπ hxo
    · apply hs x
      rw [h.current, Function.update_of_ne hxπ] at hx
      exact hx

theorem Rests.same (h : Rests s t) : Same s t :=
  ⟨fun p => by rw [h.live], fun p => by rw [h.live], h.sched_state, h.alt_state, h.children,
    h.parent⟩

theorem Rests.settled (h : Rests s t) (hs : s.Settled sys) : t.Settled sys := by
  unfold Settled
  rw [h.current, h.live, h.stackptr]
  exact hs

/-- What a process does to itself while it runs. -/
theorem Settled.of_live (h : s.Settled sys) (hp : s.Runs sys p) (hcur : t.current = s.current)
    (hin : (t.live p).inside = none) (hlive : ∀ x, x ≠ p → t.live x = s.live x)
    (hstack : ∀ x, x ≠ p → t.stackptr x = s.stackptr x) : t.Settled sys := by
  intro x hx
  have hxp : x ≠ p := by
    intro heq
    rw [heq, hcur, hin] at hx
    exact hx.elim (fun hne => hne hp.1) fun hne => hne rfl
  rw [hlive x hxp, hcur] at hx
  rw [hlive x hxp, hstack x hxp]
  exact h x hx

theorem Settled.goes_to (h : s.Settled sys) (hp : s.Runs sys p) (code : Code) :
    (s.goto p code).Settled sys := by
  refine h.of_live hp rfl ?_ (fun x hx => ?_) fun _ _ => rfl
  · simpa [Sched.goto] using hp.2
  · simp [Sched.goto, hx]

theorem Settled.doing (h : s.Settled sys) (hp : s.Runs sys p) (op : Op N) :
    (s.doing p op).Settled sys := by
  refine h.of_live hp rfl ?_ (fun x hx => ?_) fun _ _ => rfl
  · simpa [Sched.doing] using hp.2
  · simp [Sched.doing, hx]

theorem Settled.vanishes (h : s.Settled sys) (hp : s.Runs sys p) : (s.vanish p).Settled sys := by
  refine h.of_live hp rfl ?_ (fun x hx => ?_) fun x hx => ?_
  · simp [Sched.vanish]
  · simp [Sched.vanish, hx]
  · simp [Sched.vanish, hx]

theorem Settled.schedule0_same (h : s.Settled sys) (hstep : s.schedule0 sys π proc = some t) :
    Same s t ∧ t.Settled sys := by
  obtain ⟨-, hrests⟩ | ⟨-, hhands⟩ := schedule0_switch hstep
  · exact ⟨hrests.same, hrests.settled h⟩
  · exact ⟨hhands.same h nofun, hhands.settled h nofun⟩

theorem Settled.schedule0_stands (h : s.Settled sys)
    (hstep : s.schedule0 sys π proc = some t) (x : Fin N) : Stands s t x := by
  have hsame := (h.schedule0_same hstep).1
  exact ⟨hsame.code x, hsame.op x⟩

theorem Settled.preempts_stands (h : s.Settled sys) (hin : (s.live (s.current π)).inside ≠ none)
    (hstep : s.schedule_from_interrupt sys π = some t) (x : Fin N) : Stands s t x := by
  obtain ⟨-, rfl⟩ | ⟨-, new, hhands⟩ := schedule_from_interrupt_switch hstep
  · exact Stands.refl _ x
  · exact hhands.stands h (fun _ => h _ (Or.inr hin)) x

theorem Settled.relinquish_stands {w : Wait} (h : s.Settled sys) (hp : s.Runs sys p)
    (hstep : s.relinquish_unconditional sys p w = some t) (x : Fin N) :
    Stands (s.goto p (.switched w)) t x := by
  obtain ⟨new, hhands⟩ := relinquish_switch hp.1 hstep
  exact hhands.stands (h.goes_to hp _) nofun x

/-- What is saved for a process that has terminated. -/
theorem vanish_saved (hp : s.Runs sys p) :
    ((s.vanish p).stackptr ((s.vanish p).current (sys.pun p))).code =
        ((s.vanish p).live ((s.vanish p).current (sys.pun p))).code ∧
      ((s.vanish p).stackptr ((s.vanish p).current (sys.pun p))).op =
        ((s.vanish p).live ((s.vanish p).current (sys.pun p))).op := by
  have hcur : (s.vanish p).current (sys.pun p) = p := hp.1
  rw [hcur]
  simp [Sched.vanish]

theorem Settled.finish_stands (h : s.Settled sys) (hp : s.Runs sys p)
    (hstep : s.finish_termination sys p = some t) (x : Fin N) :
    Stands (s.vanish p) t x := by
  obtain ⟨new, hhands⟩ := finish_termination_switch hstep
  exact hhands.stands (h.vanishes hp) (fun _ => vanish_saved hp) x

/-- Who yields may come to be about to enable interrupts. -/
theorem Settled.yield_stands (h : s.Settled sys) (hp : s.Runs sys p)
    (hstep : s.yield sys p = some t) :
    (∀ x, x ≠ p → Stands s t x) ∧ (t.live p).code = (s.live p).code := by
  obtain ⟨queues, -, rfl⟩ | ⟨new, queues, -, hhands⟩ := yield_switch hp.1 hstep
  · exact ⟨fun x _ => Stands.refl _ x, rfl⟩
  · have hstands := hhands.stands (h.doing hp .enable) nofun
    constructor
    · intro x hx
      exact (stands_doing hx .enable).trans (hstands x)
    · rw [(hstands p).1]
      simp [Sched.doing]

end Functions

section Steps

/-- A process takes its steps while it runs. -/
theorem actor_runs (hstep : s.step sys act = some t) (hp : act.actor = some p) :
    s.Runs sys p := by
  cases step_cases hstep <;> cases hp
  case run hruns hrun => exact hruns
  all_goals exact (by assumption : s.May sys _ _).1

theorem enqueue_live {parent child : Fin N} (hstep : s.enqueue sys parent child = some t) :
    t.live = s.live := by
  unfold enqueue at hstep
  split at hstep
  · exact (enqueue0_rests hstep).live
  next hpun =>
    obtain ⟨-, hrests⟩ | ⟨hov, -⟩ := schedule0_switch hstep
    · exact hrests.live
    · exact absurd hov.1 hpun

theorem freeProcess_live (hstep : s.freeProcess sys q = some t) : t.live = s.live := by
  unfold Sched.freeProcess at hstep
  split at hstep
  · exact (enqueue0_rests hstep).live
  · cases hstep
    rfl

theorem Settled.handling (h : s.Settled sys) (hin : (s.live p).inside ≠ none)
    (i : Option (Handler N)) : (s.handling p i).Settled sys := by
  intro x hx
  by_cases hxp : x = p
  · subst hxp
    simpa [Sched.handling] using h x (Or.inr hin)
  · simp only [Sched.handling, Function.update_of_ne hxp] at hx ⊢
    exact h x hx

/-- The handlers move nobody in its code. -/
theorem Settled.handle_stands (h : s.Settled sys) {i : Handler N} (hin : s.Inside π i)
    (hstep : s.handle sys π (s.current π) i = some t) (x : Fin N) : Stands s t x := by
  have hinside : (s.live (s.current π)).inside ≠ none := by
    rw [hin]
    simp
  cases i with
  | timeout =>
      cases hstep
      exact stands_handling _
  | freeWaiting q =>
      simp only [Sched.handle] at hstep
      split at hstep
      · exact (stands_handling _).trans (stands_of_live (enqueue0_rests hstep).live)
      · cases hstep
        exact stands_handling _
  | interproc =>
      simp only [Sched.handle] at hstep
      split at hstep
      · cases hstep
        exact stands_handling _
      · rename_i proc queues _
        have hs : ({ s with queues := queues } : Sched N U).Settled sys := h
        exact hs.schedule0_stands hstep x
  | user =>
      cases hstep
      exact stands_handling _
  | preempt again =>
      have hs := h.handling hinside (some (if again then .preempt false else .exit))
      apply (stands_handling _).trans
      apply hs.preempts_stands _ hstep
      simp [Sched.handling]
  | exit =>
      cases hstep
      exact stands_handling _

/-- It goes on elsewhere in its code. -/
theorem goes_on {code : Code} {P : Prop} (hcode : code.exists = true)
    (hlive : t.live = (s.goto p code).live) :
    (∀ x, x ≠ p → Stands s t x) ∧
      ((s.live p).code.exists = true → (t.live p).code.exists = true ∨ P) := by
  constructor
  · intro x hx
    unfold Stands
    rw [hlive]
    exact stands_goto hx code
  · intro _
    left
    rw [hlive]
    simpa [goto] using hcode

/-- A process goes on in what it is in, which may be the end. -/
theorem Settled.run (h : s.Settled sys) (hp : s.Runs sys p)
    (hstep : s.run sys p = some t) :
    (∀ x, x ≠ p → Stands s t x) ∧
      ((s.live p).code.exists = true → (t.live p).code.exists = true ∨
        s.Ends (.run p) p ∧ (t.live p).code = .dead) := by
  cases run_cases hstep with
  | frees hop halt =>
      refine ⟨fun x hx => stands_doing hx _, fun hex => Or.inl ?_⟩
      simpa [Sched.doing, altReady] using hex
  | freed hop halt =>
      refine ⟨fun x hx => stands_doing hx _, fun hex => Or.inl ?_⟩
      simpa [Sched.doing] using hex
  | schedule hop hschedule =>
      have hs := (h.doing hp .enable).schedule0_stands hschedule
      constructor
      · intro x hx
        exact (stands_doing hx .enable).trans (hs x)
      · intro hex
        left
        rw [(hs p).1]
        simpa [Sched.doing] using hex
  | enable hop =>
      refine ⟨fun x hx => stands_doing hx _, fun hex => Or.inl ?_⟩
      simpa [Sched.doing] using hex
  | relinquish hop hcode hrelinquish =>
      have hs := h.relinquish_stands hp hrelinquish
      refine ⟨fun x hx => (stands_goto hx _).trans (hs x), fun _ => Or.inl ?_⟩
      rw [(hs p).1]
      simp [goto, Code.exists]
  | @switched w hop hcode => exact goes_on (by cases w <;> rfl) rfl
  | ending hop hcode =>
      refine ⟨?_, fun _ => Or.inl (by simp [Code.exists])⟩
      intro x hx
      simp [Stands, hx]
  | finishing hop hcode hfinish =>
      have hs := h.finish_stands hp hfinish
      refine ⟨?_, fun _ => Or.inr ⟨⟨rfl, hop, hcode⟩, ?_⟩⟩
      · intro x hx
        apply Stands.trans _ (hs x)
        simp [Stands, vanish, hx]
      · rw [(hs p).1]
        simp [vanish]
  | _ => exact goes_on rfl rfl

/-- **Nobody else is moved**, but a child that is built. -/
theorem Settled.others (h : s.Settled sys) (hstep : s.step sys act = some t)
    (hx : act.actor ≠ some x) (hbuild : ∀ p, act ≠ .build p x) : Stands s t x := by
  have hne : ∀ p, act.actor = some p → x ≠ p := by
    intro p hp heq
    exact hx (heq ▸ hp)
  cases step_cases hstep with
  | prepare hmay => exact stands_goto (hne _ rfl) _
  | select hmay => exact stands_goto (hne _ rfl) _
  | found hmay => exact stands_goto (hne _ rfl) _
  | par hmay haccepts => exact stands_goto (hne _ rfl) _
  | @build p child kind nc left t hcode hmay hunborn hpri hpun henqueue =>
      have hxp : x ≠ p := hne p rfl
      have hxc : x ≠ child := by
        intro heq
        exact hbuild p (by rw [heq])
      unfold Stands
      rw [enqueue_live henqueue]
      simp [goto, make_process, hxp, hxc]
  | wake hmay hwaits =>
      unfold Sched.wake
      split
      · exact stands_doing (hne _ rfl) _
      · exact Stands.refl _ x
  | free hmay =>
      unfold Sched.free
      split
      · exact Stands.refl _ x
      · exact stands_doing (hne _ rfl) _
      · exact Stands.refl _ x
  | yield hmay hyield => exact (h.yield_stands hmay.1 hyield).1 x (hne _ rfl)
  | @sync p parent hmay hparent =>
      have hxp : x ≠ p := hne p rfl
      unfold par_barr_sync
      dsimp only
      split
      · exact (stands_goto hxp _).trans (stands_doing hxp _)
      · exact stands_goto hxp _
  | run hruns hrun => exact (h.run hruns hrun).1 x (hne _ rfl)
  | interrupt hinside henabled => exact stands_handling _
  | timeout hpun hwaits hinside hfree => exact stands_of_live (freeProcess_live hfree)
  | transmit hpun hwaits hinside hfree =>
      exact (stands_handling _).trans (stands_of_live (freeProcess_live hfree))
  | freeAlting hpun hinside =>
      unfold Sched.freeAlting
      split
      · exact Stands.refl _ x
      · exact stands_handling _
      · exact Stands.refl _ x
  | handle hinside hhandle => exact h.handle_stands hinside hhandle x

/-- **Who takes a step goes on existing**, unless it is the last one. -/
theorem Settled.actor (h : s.Settled sys) (hstep : s.step sys act = some t)
    (hp : act.actor = some p) (hex : (s.live p).code.exists = true) :
    (t.live p).code.exists = true ∨ s.Ends act p ∧ (t.live p).code = .dead := by
  cases step_cases hstep <;> cases hp
  case prepare hmay =>
    left
    simp [goto, Code.exists]
  case select hmay =>
    left
    simp [goto, Code.exists]
  case found hmay =>
    left
    simp [goto, Code.exists]
  case par hmay haccepts =>
    left
    simp [Sched.par, goto, Code.exists]
  case build hunborn hcode hmay hpri hpun henqueue =>
    left
    rw [enqueue_live henqueue]
    simp [goto, Code.exists]
  case wake hwaits hmay =>
    left
    unfold Sched.wake
    split
    · simpa [Sched.doing, ready] using hex
    · simpa [ready] using hex
  case free hmay =>
    left
    unfold Sched.free
    split
    · simpa [altReady] using hex
    · simpa [Sched.doing] using hex
    · exact hex
  case yield hmay hyield =>
    left
    rw [(h.yield_stands hmay.1 hyield).2]
    exact hex
  case sync hmay hparent =>
    left
    unfold par_barr_sync
    dsimp only
    split <;> simp [goto, Sched.doing, Code.exists]
  case run hruns hrun => exact (h.run hruns hrun).2 hex

/-- The last step. -/
theorem Settled.ends (h : s.Settled sys) (hends : s.Ends act p)
    (hstep : s.step sys act = some t) : (t.live p).code = .dead := by
  obtain ⟨rfl, hop, hcode⟩ := hends
  cases step_cases hstep with
  | run hruns hrun =>
      unfold Sched.run at hrun
      simp only [hop, hcode] at hrun
      rw [(h.finish_stands hruns hrun p).1]
      simp [vanish]

/-- A child that is built did not exist. -/
theorem built_unborn (hstep : s.step sys (.build p x) = some t) :
    (s.live x).code = .unborn ∧ (t.live x).code = .own := by
  cases step_cases hstep with
  | build hcode hmay hunborn hpri hpun henqueue =>
      refine ⟨hunborn, ?_⟩
      have hxp : x ≠ p := by
        intro heq
        rw [heq, hcode] at hunborn
        cases hunborn
      rw [enqueue_live henqueue]
      simp [goto, make_process, hxp]

/-- A process that is spared stays where it stands, and in the state it is in. -/
theorem Settled.spared (h : s.Settled sys) (hstep : s.step sys act = some t)
    (hx : act.spares x = true) : Stands s t x ∧ t.sched_state x = s.sched_state x := by
  simp only [SchedAct.spares, Bool.and_eq_true, decide_eq_true_eq] at hx
  have hbuild : ∀ p, act ≠ .build p x := by
    intro p heq
    exact hx.2 (by rw [heq]; rfl)
  exact ⟨h.others hstep hx.1 hbuild, step_marks hstep hx.2⟩

/-- A process that goes on in what it is in comes to be about to schedule another one
only where it has found it Waiting in a select, and so it is still. -/
theorem Settled.run_op (h : s.Settled sys) (hp : s.Runs sys p) (hstep : s.run sys p = some t)
    (hop : (t.live p).op = .schedule q) :
    (s.live p).op = .freeWaiting q ∧ s.alt_state q = .waiting := by
  cases run_cases hstep with
  | frees hop' halt =>
      simp only [Sched.doing, Function.update_self, Op.schedule.injEq] at hop
      subst hop
      exact ⟨hop', halt⟩
  | freed hop' halt => simp [Sched.doing] at hop
  | schedule hop' hschedule =>
      rw [((h.doing hp .enable).schedule0_stands hschedule p).2] at hop
      simp [Sched.doing] at hop
  | enable hop' => simp [Sched.doing] at hop
  | relinquish hop' hcode hrelinquish =>
      rw [(h.relinquish_stands hp hrelinquish p).2] at hop
      simp [goto, hop'] at hop
  | ending hop' hcode => simp at hop
  | finishing hop' hcode hfinish =>
      rw [(h.finish_stands hp hfinish p).2] at hop
      simp [vanish] at hop
  | waits hop' _ _ | woken hop' _ _ | altWaits hop' _ _ | altReady hop' _ _
  | disabling hop' _ | parWaits hop' _ _ | parWoken hop' _ _ | switched hop' _ =>
      simp [goto, hop'] at hop

/-- Whoever takes a step, and comes to be about to schedule a process by it. -/
theorem Settled.engages_actor (h : s.Settled sys) (hstep : s.step sys act = some t)
    (hactor : act.actor = some x) (hop : (t.live x).op = .schedule q) :
    (s.live x).op = .schedule q ∨ s.Engages act x q := by
  cases step_cases hstep <;> cases hactor
  case run hruns hrun =>
    right
    exact Or.inr (Or.inl ⟨rfl, h.run_op hruns hrun hop⟩)
  case yield hmay hyield =>
    obtain ⟨queues, -, rfl⟩ | ⟨new, queues, -, hhands⟩ := yield_switch hmay.1.1 hyield
    · exact Or.inl hop
    · have hstands := hhands.stands (h.doing hmay.1 .enable) (by
        intro hsaves
        cases hsaves) x
      rw [hstands.2] at hop
      simp [Sched.doing] at hop
  case build child kind nc left hunborn hcode hmay hpri hpun henqueue =>
    left
    rw [enqueue_live henqueue] at hop
    by_cases hx : x = child
    · subst hx
      simp [goto, make_process] at hop
    · simpa [goto, make_process, hx] using hop
  case sync parent hmay hparent =>
    unfold par_barr_sync at hop
    dsimp only at hop
    split at hop
    · simp only [Sched.doing, Function.update_self, Op.schedule.injEq] at hop
      subst hop
      exact Or.inr (Or.inr (Or.inr ⟨rfl, hparent⟩))
    · left
      simpa [goto] using hop
  case wake r hwaits hmay =>
    unfold Sched.wake at hop
    split at hop
    · simp only [Sched.doing, Function.update_self, Op.schedule.injEq] at hop
      subst hop
      exact Or.inr (Or.inl rfl)
    · exact Or.inl hop
  case free r hmay =>
    unfold Sched.free at hop
    split at hop
    · exact Or.inl hop
    · simp [Sched.doing] at hop
    · exact Or.inl hop
  all_goals
    left
    simpa [goto, Sched.par] using hop

/-- **Who comes to be about to schedule a process** has woken it, or freed it, or is
its last child. -/
theorem Settled.engages (h : s.Settled sys) (hstep : s.step sys act = some t)
    (hop : (t.live x).op = .schedule q) : (s.live x).op = .schedule q ∨ s.Engages act x q := by
  by_cases hactor : act.actor = some x
  · exact h.engages_actor hstep hactor hop
  · left
    by_cases hbuild : ∃ p, act = .build p x
    · obtain ⟨p, rfl⟩ := hbuild
      have hxp : x ≠ p := by
        intro heq
        exact hactor (by rw [heq]; rfl)
      cases step_cases hstep with
      | build hcode hmay hunborn hpri hpun henqueue =>
          rw [enqueue_live henqueue] at hop
          simp [goto, make_process, hxp] at hop
    · rw [← (h.others hstep hactor fun p heq => hbuild ⟨p, heq⟩).2]
      exact hop

end Steps

end Sched

end Cxp
