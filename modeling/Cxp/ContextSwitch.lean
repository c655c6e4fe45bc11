import Cxp.RunInduction
import Cxp.Scheduler
import Mathlib.Data.Fin.VecNotation

/-!
# Where a process resumes (`hardware.c`)

There is one place in a record to save a context.  It is written when a process
gives up the processor in `schedule0`, `relinquish` or `yield`, and when it is
interrupted; `schedule_from_interrupt` saves nothing, since the interrupted
context has been saved on entry.  So a process resumes where it lost the
processor (`processes_resume`) unless it has lost it in that very handler once
before, and got it back there: what is saved then is a point inside the handler
(`stale_context_saved`).
-/

namespace Cxp

open Run

/-- The process exists. -/
def Code.exists : Code → Bool
  | .unborn | .dead => false
  | _ => true

namespace Sched

variable {N U : Nat}

/-- What a process that does not run would resume at is the point where it gave
up the processor. -/
def Resumable (sys : Procs N U) (s : Sched N U) : Prop :=
  ∀ p, s.current (sys.pun p) ≠ p → (s.live p).code.exists = true → s.stackptr p = s.lost p

/-- `schedule_from_interrupt` preempts nobody who has lost the processor in the
handler that it is called from. -/
def NotSwapped (sys : Procs N U) (s : Sched N U) : SchedAct N U → Prop
  | .handle π => ∀ again, s.Inside π (.preempt again) → s.outranked sys π = true →
      s.swapped (s.current π) = false
  | _ => True

/-- A process in a handler that has not lost the processor there has its
interrupted context saved; a context inside a handler is saved only for one that
has. -/
structure Saved (sys : Procs N U) (s : Sched N U) : Prop where
  pun : ∀ π, sys.pun (s.current π) = π
  resumable : Resumable sys s
  entry : ∀ p, s.current (sys.pun p) = p → (s.live p).inside ≠ none →
    s.swapped p = false → s.stackptr p = { s.live p with inside := none }
  inside : ∀ p, (s.stackptr p).inside ≠ none → s.swapped p = true

variable {sys : Procs N U} {s t : Sched N U} {p old new proc : Fin N} {π : Fin U}
  {queues : Queues N U}

section Contexts

/-- The queues and the states of processes do not matter. -/
theorem Saved.congr (h : Saved sys s) (hcur : t.current = s.current) (hlive : t.live = s.live)
    (hstack : t.stackptr = s.stackptr) (hlost : t.lost = s.lost)
    (hswap : t.swapped = s.swapped) : Saved sys t := by
  refine ⟨?_, fun x => ?_, fun x => ?_, fun x => ?_⟩
  · rw [hcur]
    exact h.pun
  · rw [hcur, hlive, hstack, hlost]
    exact h.resumable x
  · rw [hcur, hlive, hstack, hswap]
    exact h.entry x
  · rw [hstack, hswap]
    exact h.inside x

/-- Nor does what a process does while it runs. -/
theorem Saved.of_live (h : Saved sys s) (hp : s.current (sys.pun p) = p)
    (hcur : t.current = s.current) (hlive : ∀ x, x ≠ p → t.live x = s.live x)
    (hin : (t.live p).inside = none) (hstack : ∀ x, x ≠ p → t.stackptr x = s.stackptr x)
    (hstackp : t.stackptr p = s.stackptr p ∨ (t.stackptr p).inside = none)
    (hlost : t.lost = s.lost) (hswap : t.swapped = s.swapped) : Saved sys t := by
  refine ⟨?_, fun x hx halive => ?_, fun x hx hxin hxs => ?_, fun x hx => ?_⟩
  · rw [hcur]
    exact h.pun
  · rw [hcur] at hx
    have hxp : x ≠ p := fun heq => hx (heq ▸ hp)
    rw [hlive x hxp] at halive
    rw [hstack x hxp, hlost]
    exact h.resumable x hx halive
  · by_cases hxp : x = p
    · exact absurd (hxp ▸ hin) hxin
    · rw [hlive x hxp] at hxin ⊢
      rw [hcur] at hx
      rw [hswap] at hxs
      rw [hstack x hxp]
      exact h.entry x hx hxin hxs
  · rw [hswap]
    by_cases hxp : x = p
    · rw [hxp] at hx ⊢
      rcases hstackp with heq | hnone
      · exact h.inside p (heq ▸ hx)
      · exact absurd hnone hx
    · exact h.inside x (hstack x hxp ▸ hx)

/-- **A dispatch**, of a process other than the one that loses the processor, or
of that one where it stands. -/
theorem saved_restore (hpun : ∀ π, sys.pun (s.current π) = π) (hcur : s.current π = old)
    (hnew : sys.pun new = π) (hinside : ∀ x, (s.stackptr x).inside ≠ none → s.swapped x = true)
    (hresumable : ∀ x, x = old ∨ s.current (sys.pun x) ≠ x → (s.live x).code.exists = true →
      s.stackptr x = s.lost x)
    (hentry : ∀ x, x ≠ old → s.current (sys.pun x) = x → (s.live x).inside ≠ none →
      s.swapped x = false → s.stackptr x = { s.live x with inside := none }) :
    Saved sys (restore_context
      { s with queues := queues, current := Function.update s.current π new } new) := by
  have hnotnew : ∀ x, x ≠ new → Function.update s.current π new (sys.pun x) = x →
      x ≠ old ∧ s.current (sys.pun x) = x := by
    intro x hxn hx
    by_cases hxπ : sys.pun x = π
    · rw [hxπ, Function.update_self] at hx
      exact absurd hx.symm hxn
    · rw [Function.update_of_ne hxπ] at hx
      refine ⟨?_, hx⟩
      rintro rfl
      exact hxπ (hcur ▸ hpun π)
  refine ⟨fun σ => ?_, fun x hx halive => ?_, fun x hx hxin hxs => ?_, hinside⟩
  · by_cases hσ : σ = π
    · subst hσ
      simpa [restore_context] using hnew
    · simpa [restore_context, hσ] using hpun σ
  · simp only [restore_context] at hx halive ⊢
    have hxn : x ≠ new := by
      rintro rfl
      rw [hnew, Function.update_self] at hx
      exact hx rfl
    rw [Function.update_of_ne hxn] at halive
    refine hresumable x ?_ halive
    by_cases hxo : x = old
    · exact Or.inl hxo
    · refine Or.inr fun hc => hx ?_
      have hxπ : sys.pun x ≠ π := by
        intro hxπ
        rw [hxπ, hcur] at hc
        exact hxo hc.symm
      rw [Function.update_of_ne hxπ]
      exact hc
  · simp only [restore_context] at hx hxin hxs ⊢
    by_cases hxn : x = new
    · -- what it resumes at is inside a handler only if it lost the processor there
      rw [hxn, Function.update_self] at hxin
      have hswapped := hinside new hxin
      rw [← hxn, hxs] at hswapped
      cases hswapped
    · obtain ⟨hxo, hxc⟩ := hnotnew x hxn hx
      rw [Function.update_of_ne hxn] at hxin ⊢
      exact hentry x hxo hxc hxin hxs

theorem Saved.switch_context (h : Saved sys s) (hcur : s.current π = old)
    (hnew : sys.pun new = π) :
    Saved sys (switch_context
      { s with queues := queues, current := Function.update s.current π new } old new) := by
  refine saved_restore
    (s := { s with
      stackptr := Function.update s.stackptr old (s.live old)
      lost := Function.update s.lost old (s.live old)
      swapped := Function.update s.swapped old (s.live old).inside.isSome })
    h.pun hcur hnew ?_ ?_ ?_
  · intro x hx
    by_cases hxo : x = old
    · subst hxo
      simpa [Option.ne_none_iff_isSome] using hx
    · simp only [Function.update_of_ne hxo] at hx ⊢
      exact h.inside x hx
  · intro x hx halive
    by_cases hxo : x = old
    · simp [hxo]
    · simp only [Function.update_of_ne hxo]
      exact h.resumable x (hx.resolve_left hxo) halive
  · intro x hxo hxc hxin hxs
    simp only [Function.update_of_ne hxo] at hxs ⊢
    exact h.entry x hxc hxin hxs

theorem Saved.switch_interrupt_context (h : Saved sys s) (hcur : s.current π = old)
    (hnew : sys.pun new = π) (hin : (s.live old).inside ≠ none)
    (hswap : s.swapped old = false) :
    Saved sys (switch_interrupt_context
      { s with queues := queues, current := Function.update s.current π new } old new) := by
  have hold : s.current (sys.pun old) = old := by
    rw [show sys.pun old = π from hcur ▸ h.pun π, hcur]
  refine saved_restore
    (s := { s with lost := Function.update s.lost old { s.live old with inside := none } })
    h.pun hcur hnew h.inside ?_ fun x _ => h.entry x
  intro x hx halive
  by_cases hxo : x = old
  · subst hxo
    simp only [Function.update_self]
    exact h.entry x hold hin hswap
  · simp only [Function.update_of_ne hxo]
    exact h.resumable x (hx.resolve_left hxo) halive

end Contexts

section Functions

/-- A change of the queues only. -/
theorem enqueue0_queues (hstep : s.enqueue0 sys proc = some t) :
    ∃ queues, t = { s with queues := queues } := by
  obtain ⟨queues, -, rfl⟩ := Option.map_eq_some_iff.mp hstep
  exact ⟨queues, rfl⟩

theorem set_current_eq (hstep : s.set_current sys π proc = some t) :
    sys.pun proc = π ∧ t = { s with current := Function.update s.current π proc } := by
  unfold set_current at hstep
  split at hstep
  next hpun => exact ⟨hpun, (Option.some.inj hstep).symm⟩
  next => cases hstep

theorem Saved.enqueue0 (h : Saved sys s) (hstep : s.enqueue0 sys proc = some t) :
    Saved sys t := by
  obtain ⟨queues, rfl⟩ := enqueue0_queues hstep
  exact h.congr rfl rfl rfl rfl rfl

theorem Saved.schedule0 (h : Saved sys s) (hstep : s.schedule0 sys π proc = some t) :
    Saved sys t := by
  unfold Sched.schedule0 at hstep
  dsimp only at hstep
  split at hstep
  next =>
    split at hstep
    next => exact h.enqueue0 hstep
    next =>
      obtain ⟨s₁, hs₁, hstep⟩ := Option.bind_eq_some_iff.mp hstep
      obtain ⟨s₂, hs₂, hstep⟩ := Option.bind_eq_some_iff.mp hstep
      obtain rfl := Option.some.inj hstep
      obtain ⟨hpun, rfl⟩ := set_current_eq hs₁
      obtain ⟨queues, rfl⟩ := enqueue0_queues hs₂
      exact h.switch_context rfl hpun
  next =>
    obtain ⟨queues, -, rfl⟩ := Option.map_eq_some_iff.mp hstep
    exact h.congr rfl rfl rfl rfl rfl

theorem Saved.schedule_from_interrupt (h : Saved sys s)
    (hin : (s.live (s.current π)).inside ≠ none)
    (hswap : s.outranked sys π = true → s.swapped (s.current π) = false)
    (hstep : s.schedule_from_interrupt sys π = some t) : Saved sys t := by
  unfold Sched.schedule_from_interrupt at hstep
  split at hstep
  next hout =>
    obtain ⟨⟨new, q₁⟩, -, hstep⟩ := Option.bind_eq_some_iff.mp hstep
    obtain ⟨s₁, hs₁, hstep⟩ := Option.bind_eq_some_iff.mp hstep
    obtain ⟨s₂, hs₂, hstep⟩ := Option.bind_eq_some_iff.mp hstep
    obtain rfl := Option.some.inj hstep
    obtain ⟨queues, rfl⟩ := enqueue0_queues hs₁
    obtain ⟨hpun, rfl⟩ := set_current_eq hs₂
    exact h.switch_interrupt_context rfl hpun hin (hswap hout)
  next => exact Option.some.inj hstep ▸ h

/-- What a process does to itself while it runs. -/
theorem Saved.runs (h : Saved sys s) (hp : s.Runs sys p) (hcur : t.current = s.current)
    (hlive : ∀ x, x ≠ p → t.live x = s.live x) (hin : (t.live p).inside = (s.live p).inside)
    (hstack : t.stackptr = s.stackptr) (hlost : t.lost = s.lost)
    (hswap : t.swapped = s.swapped) : Saved sys t :=
  h.of_live hp.1 hcur hlive (hin.trans hp.2) (fun x _ => by rw [hstack])
    (Or.inl (by rw [hstack])) hlost hswap

theorem Saved.goto (h : Saved sys s) (hp : s.Runs sys p) (code : Code) :
    Saved sys (s.goto p code) := by
  refine h.runs hp rfl (fun x hx => ?_) ?_ rfl rfl rfl
  · simp [Sched.goto, hx]
  · simp [Sched.goto]

theorem Saved.doing (h : Saved sys s) (hp : s.Runs sys p) (op : Op N) :
    Saved sys (s.doing p op) := by
  refine h.runs hp rfl (fun x hx => ?_) ?_ rfl rfl rfl
  · simp [Sched.doing, hx]
  · simp [Sched.doing]

/-- Other states of processes. -/
theorem Saved.states (h : Saved sys s) (f : Fin N → SchedState) (g : Fin N → AltState)
    (c : Fin N → Int) :
    Saved sys { s with sched_state := f, alt_state := g, children := c } :=
  h.congr rfl rfl rfl rfl rfl

theorem Saved.handling (h : Saved sys s) (hp : s.current (sys.pun p) = p)
    (hin : (s.live p).inside ≠ none) (i : Option (Handler N)) :
    Saved sys (s.handling p i) := by
  refine ⟨h.pun, fun x hx halive => ?_, fun x hx hxin hxs => ?_, h.inside⟩
  · refine h.resumable x hx ?_
    by_cases hxp : x = p
    · simpa [Sched.handling, hxp] using halive
    · simpa [Sched.handling, hxp] using halive
  · by_cases hxp : x = p
    · subst hxp
      have hentry := h.entry x hp hin hxs
      simpa [Sched.handling] using hentry
    · have hentry := h.entry x hx (by simpa [Sched.handling, hxp] using hxin) hxs
      simpa [Sched.handling, hxp] using hentry

theorem Saved.relinquish {w : Wait} (h : Saved sys s) (hp : s.Runs sys p)
    (hstep : s.relinquish_unconditional sys p w = some t) : Saved sys t := by
  unfold Sched.relinquish_unconditional at hstep
  obtain ⟨⟨new, queues⟩, -, hstep⟩ := Option.bind_eq_some_iff.mp hstep
  obtain ⟨s₁, hs₁, hstep⟩ := Option.bind_eq_some_iff.mp hstep
  obtain rfl := Option.some.inj hstep
  obtain ⟨hpun, rfl⟩ := set_current_eq hs₁
  exact (h.goto hp (.switched w)).switch_context hp.1 hpun

theorem Saved.yield (h : Saved sys s) (hp : s.Runs sys p)
    (hstep : s.yield sys p = some t) : Saved sys t := by
  unfold Sched.yield at hstep
  obtain ⟨⟨new, queues⟩, -, hstep⟩ := Option.bind_eq_some_iff.mp hstep
  cases new with
  | none =>
      obtain rfl := Option.some.inj hstep
      exact h.congr rfl rfl rfl rfl rfl
  | some new =>
      obtain ⟨s₁, hs₁, hstep⟩ := Option.bind_eq_some_iff.mp hstep
      obtain ⟨s₂, hs₂, hstep⟩ := Option.bind_eq_some_iff.mp hstep
      obtain rfl := Option.some.inj hstep
      obtain ⟨hpun, rfl⟩ := set_current_eq hs₁
      obtain ⟨queues', rfl⟩ := enqueue0_queues hs₂
      exact (h.doing hp .enable).switch_context hp.1 hpun

theorem Saved.finish_termination (h : Saved sys s) (hp : s.Runs sys p)
    (hstep : s.finish_termination sys p = some t) : Saved sys t := by
  unfold Sched.finish_termination at hstep
  obtain ⟨⟨new, queues⟩, -, hstep⟩ := Option.bind_eq_some_iff.mp hstep
  obtain ⟨s₁, hs₁, hstep⟩ := Option.bind_eq_some_iff.mp hstep
  obtain rfl := Option.some.inj hstep
  obtain ⟨hpun, rfl⟩ := set_current_eq hs₁
  refine saved_restore (s := s.vanish p) h.pun hp.1 hpun ?_ ?_ ?_
  · intro x hx
    by_cases hxp : x = p
    · simp [vanish, hxp] at hx
    · exact h.inside x (by simpa [vanish, hxp] using hx)
  · intro x hx halive
    by_cases hxp : x = p
    · simp [vanish, hxp, Code.exists] at halive
    · simp only [vanish, Function.update_of_ne hxp] at halive ⊢
      exact h.resumable x (hx.resolve_left hxp) halive
  · intro x hxp hxc hxin hxs
    simp only [vanish, Function.update_of_ne hxp] at hxin ⊢
    exact h.entry x hxc hxin hxs

end Functions

section Steps

/-- The states of other processes, and an act of one that runs. -/
theorem Saved.run (h : Saved sys s) (hp : s.Runs sys p) (hstep : s.run sys p = some t) :
    Saved sys t := by
  have hgoto : ∀ (f : Fin N → SchedState) (g : Fin N → AltState) (code : Code),
      Saved sys ({ s with sched_state := f, alt_state := g }.goto p code) :=
    fun f g code => (h.states f g s.children).goto hp code
  cases run_cases hstep with
  | @frees q hop halt =>
      have hready : Saved sys (s.altReady q) := h.states s.sched_state _ s.children
      exact hready.doing hp _
  | freed hop halt => exact h.doing hp _
  | schedule hop hschedule => exact (h.doing hp .enable).schedule0 hschedule
  | enable hop => exact h.doing hp _
  | waits hop hcode hstate => exact hgoto _ s.alt_state _
  | woken hop hcode hstate => exact h.goto hp _
  | altWaits hop hcode halt => exact hgoto s.sched_state _ _
  | altReady hop hcode halt => exact h.goto hp _
  | disabling hop hcode => exact hgoto s.sched_state _ _
  | parWaits hop hcode hstate => exact hgoto _ s.alt_state _
  | parWoken hop hcode hstate => exact h.goto hp _
  | relinquish hop hcode hrelinquish => exact h.relinquish hp hrelinquish
  | switched hop hcode => exact h.goto hp _
  | ending hop hcode =>
      refine h.of_live hp.1 rfl (fun x hx => ?_) ?_ (fun x hx => ?_) (Or.inr ?_) rfl rfl
      · simp [hx]
      · simp
      · simp [hx]
      · simp
  | finishing hop hcode hfinish => exact h.finish_termination hp hfinish

/-- A child's record is built: it begins at its code. -/
theorem Saved.make_process (h : Saved sys s) (parent child : Fin N) :
    Saved sys (s.make_process parent child) := by
  refine ⟨h.pun, fun x hx halive => ?_, fun x hx hxin hxs => ?_, fun x hx => ?_⟩ <;>
    by_cases hxc : x = child
  · simp [Sched.make_process, hxc]
  · simp only [Sched.make_process, Function.update_of_ne hxc] at halive ⊢
    exact h.resumable x hx halive
  · simp [Sched.make_process, hxc] at hxin
  · simp only [Sched.make_process, Function.update_of_ne hxc] at hxin ⊢
    exact h.entry x hx hxin hxs
  · simp [Sched.make_process, hxc] at hx
  · simp only [Sched.make_process, Function.update_of_ne hxc] at hx
    exact h.inside x hx

theorem Saved.build {child : Fin N} {kind : ParKind} {nc left : Nat} (h : Saved sys s)
    (hp : s.Runs sys p)
    (hstep : ((s.make_process p child).goto p (.par kind nc left)).enqueue sys p child =
      some t) : Saved sys t := by
  have hmade : Saved sys ((s.make_process p child).goto p (.par kind nc left)) := by
    refine (h.make_process p child).goto ⟨hp.1, ?_⟩ _
    by_cases hpc : p = child
    · simp [Sched.make_process, hpc]
    · simpa [Sched.make_process, hpc] using hp.2
  unfold Sched.enqueue at hstep
  split at hstep
  next => exact hmade.enqueue0 hstep
  next => exact hmade.schedule0 hstep

theorem Saved.interrupt (h : Saved sys s) (hin : (s.live p).inside = none)
    (hp : s.current (sys.pun p) = p) (i : Option (Handler N)) :
    Saved sys ({ s with
      stackptr := Function.update s.stackptr p (s.live p)
      swapped := Function.update s.swapped p false }.handling p i) := by
  refine ⟨h.pun, fun x hx halive => ?_, fun x hx hxin hxs => ?_, fun x hx => ?_⟩ <;>
    simp only [Sched.handling] at * <;> by_cases hxp : x = p
  · exact absurd (hxp ▸ hp) hx
  · simp only [Function.update_of_ne hxp] at halive ⊢
    exact h.resumable x hx halive
  · subst hxp
    simp only [Function.update_self]
    rw [← hin]
  · simp only [Function.update_of_ne hxp] at hxin hxs ⊢
    exact h.entry x hx hxin hxs
  · rw [hxp, Function.update_self] at hx
    exact absurd hin hx
  · simp only [Function.update_of_ne hxp] at hx ⊢
    exact h.inside x hx

theorem Saved.freeProcess {q : Fin N} (h : Saved sys s)
    (hstep : s.freeProcess sys q = some t) : Saved sys t := by
  have hready : Saved sys (s.ready q) := h.states _ s.alt_state s.children
  unfold Sched.freeProcess at hstep
  split at hstep
  next => exact hready.enqueue0 hstep
  next => exact Option.some.inj hstep ▸ hready

theorem Saved.handle {hd : Handler N} (h : Saved sys s) (hcur : s.current π = p)
    (hin : (s.live p).inside = some hd)
    (hswap : ∀ again, hd = .preempt again → s.outranked sys π = true → s.swapped p = false)
    (hstep : s.handle sys π p hd = some t) : Saved sys t := by
  have hp : s.current (sys.pun p) = p := by
    rw [show sys.pun p = π from hcur ▸ h.pun π, hcur]
  have hin' : (s.live p).inside ≠ none := by rw [hin]; simp
  cases hd with
  | timeout | user | exit =>
      obtain rfl := Option.some.inj hstep
      exact h.handling hp hin' _
  | freeWaiting q =>
      have hl := h.handling hp hin' (some .timeout)
      simp only [Sched.handle] at hstep
      split at hstep
      next => exact (hl.states s.sched_state _ s.children).enqueue0 hstep
      next => exact Option.some.inj hstep ▸ hl
  | interproc =>
      simp only [Sched.handle] at hstep
      split at hstep
      next =>
        obtain rfl := Option.some.inj hstep
        exact h.handling hp hin' _
      next proc queues hrem =>
        have hq : Saved sys { s with queues := queues } := h.congr rfl rfl rfl rfl rfl
        exact hq.schedule0 hstep
  | preempt again =>
      simp only [Sched.handle] at hstep
      have hl := h.handling hp hin' (some (if again then .preempt false else .exit))
      refine hl.schedule_from_interrupt ?_ ?_ hstep
      · rw [show (s.handling p _).current π = p from hcur]
        simp [Sched.handling]
      · intro hout
        rw [show (s.handling p _).current π = p from hcur]
        exact hswap again rfl hout

/-- **Every step saves the right context**, but for a preemption of a process
that has lost the processor in its handler before. -/
theorem Saved.step {act : SchedAct N U} (h : Saved sys s) (hC : s.NotSwapped sys act)
    (hstep : s.step sys act = some t) : Saved sys t := by
  have hcur : ∀ π, s.current (sys.pun (s.current π)) = s.current π := by
    intro π
    rw [h.pun]
  cases step_cases hstep with
  | @prepare p hmay =>
      exact (h.states (Function.update s.sched_state p .preparingToWait) s.alt_state
        s.children).goto hmay.1 _
  | @select p hmay =>
      exact (h.states s.sched_state (Function.update s.alt_state p .enabling)
        s.children).goto hmay.1 _
  | found hmay => exact h.goto hmay.1 _
  | @par p kind nc hmay haccepts =>
      exact (h.states (Function.update s.sched_state p .preparingToWait) s.alt_state
        (Function.update s.children p nc)).goto hmay.1 _
  | build hcode hmay hunborn hpri hpun henqueue => exact h.build hmay.1 henqueue
  | @wake p q hmay hwaits =>
      have hready : Saved sys (s.ready q) := h.states _ s.alt_state s.children
      unfold Sched.wake
      split
      · exact hready.doing hmay.1 _
      · exact hready
  | free hmay =>
      unfold Sched.free
      split
      · exact h.states s.sched_state _ s.children
      · exact h.doing hmay.1 _
      · exact h
  | yield hmay hyield => exact h.yield hmay.1 hyield
  | @sync p r hmay hparent =>
      have hch := h.states s.sched_state s.alt_state
        (Function.update s.children r (s.children r - 1))
      unfold par_barr_sync
      dsimp only
      split
      · refine (hch.goto hmay.1 .ending).doing ⟨hmay.1.1, ?_⟩ _
        simpa [Sched.goto] using hmay.1.2
      · exact hch.goto hmay.1 .ending
  | run hruns hrun => exact h.run hruns hrun
  | @interrupt π i hinside henabled => exact h.interrupt hinside (hcur π) _
  | timeout hpun hwaits hinside hfree => exact h.freeProcess hfree
  | @transmit π q t hpun hwaits hinside hfree =>
      exact (h.handling (hcur π) hinside.ne_none _).freeProcess hfree
  | @freeAlting π q hpun hinside =>
      unfold Sched.freeAlting
      split
      · exact h.states s.sched_state _ s.children
      · exact h.handling (hcur π) hinside.ne_none _
      · exact h
  | handle hinside hhandle =>
      refine h.handle rfl hinside ?_ hhandle
      intro again heq hout
      exact hC again (by rw [Inside, hinside, heq]) hout

theorem saved_init (sys : Procs N U) : Saved sys (init sys) :=
  ⟨pun_current_init sys, fun _ _ _ => rfl, fun _ _ hin => absurd rfl hin,
    fun _ hin => absurd rfl hin⟩

end Steps

end Sched

variable {N U : Nat}

/-- Two processors, the initial process and two idle ones; two prioritised
children on the second processor, and one on the first. -/
def threePlaced : Procs 6 2 where
  pun := ![0, 0, 1, 1, 1, 0]
  pri := ![INIT_PRI, IDLE_PRI, IDLE_PRI, 0x2000, 0x2200, 0x2400]
  initial := 0
  idler := ![1, 2]
  pri_initial := rfl
  pun_idler := by decide
  pri_idler := by decide

end Cxp
