import Cxp.SelectReadiness

/-!
# `try_in` (`comm.c`)

`try_in` is to be `in` without the waiting.  Where no writer is registered it
returns false and changes nothing.  Where one is, it takes the message and
clears the channel as `in` does, but does not go on to exchange the writer's
`sched_state` and schedule it, as `in` does behind its critical section.  The
writer stays in its call of `out` with its message taken, and nobody is left to
wake it.

So a run is as it should be exactly as long as every call of `try_in` finds no
writer (`try_in_exact`).
-/

namespace Cxp

open Meeting Run

variable {N U : Nat} {Chan Msg : Type} [DecidableEq Chan]

/-- A call of `try_in`: the states before and after it, and what it returned. -/
structure Try (N U : Nat) (Chan Msg : Type) where
  chan : Chan
  before : Comm N U Chan Msg
  after : Comm N U Chan Msg
  result : Bool

/-- The system, and the calls of `try_in` so far. -/
structure Tries (N U : Nat) (Chan Msg : Type) where
  comm : Comm N U Chan Msg
  tries : List (Try N U Chan Msg)

/-- What happens next. -/
inductive TryAct (N U : Nat) (Chan Msg : Type)
  | try_in (c : Chan)
  | comm (act : CommAct N U Chan Msg)

namespace Comm

/-- `try_in`, which is one critical section; `none` would be a copy from a null
pointer. -/
def try_in (s : Comm N U Chan Msg) (p : Fin N) (c : Chan) :
    Option (Comm N U Chan Msg × Bool) :=
  match s.waiting c with
  | some _ =>
      (s.ptr c).map fun src => ((s.transfer c p (s.src src)).ret p .input c, true)
  | none => some (s, false)

/-- A call of `in` by the channel's reader, during which nothing else happens;
`none` when it has to wait. -/
def inAlone (net : Net N Chan) (pun : Fin N → Fin U) (s : Comm N U Chan Msg) (c : Chan) :
    Option (Comm N U Chan Msg) :=
  let p := net.role c .input
  (exec (Comm.step net pun) s [.in c, .run p, .run p]).bind fun t =>
    if t.pc p = .idle then some t else t.run pun p

/-- A writer is in `out` with its message taken, is not woken yet, and nobody is
about to wake it. -/
def Stranded (net : Net N Chan) (s : Comm N U Chan Msg) (c : Chan) : Prop :=
  (s.party net c .output).waits = true ∧ s.waiting c ≠ some (net.role c .output) ∧
    (s.party net c .input).isWake = false ∧ (s.party net c .input).isSchedule = false ∧
    ¬ (s.sched_state (net.role c .output) = .ready ∧
      s.runnable (net.role c .output) = true)

end Comm

namespace Try

/-- The call had the effect of `in` on the reader's memory, on the channel and
on the writer, or there was no writer and it returned false and changed
nothing. -/
def LikeIn (net : Net N Chan) (pun : Fin N → Fin U) (x : Try N U Chan Msg) : Prop :=
  match x.before.waiting x.chan with
  | some w =>
      x.result = true ∧ ∃ t, x.before.inAlone net pun x.chan = some t ∧
        x.after.dest (net.role x.chan .input) = t.dest (net.role x.chan .input) ∧
        x.after.waiting x.chan = t.waiting x.chan ∧ x.after.ptr x.chan = t.ptr x.chan ∧
        x.after.sched_state w = t.sched_state w ∧ x.after.runnable w = t.runnable w
  | none => x.result = false ∧ x.after = x.before

end Try

namespace Tries

/-- Everything initialised. -/
def init (N U : Nat) (Chan : Type) {Msg : Type} (proc : Fin N) (msg : Msg) :
    Tries N U Chan Msg where
  comm := Comm.init N U Chan proc msg
  tries := []

/-- One step.  A process calls `try_in` on channels that it reads. -/
def step (net : Net N Chan) (pun : Fin N → Fin U) (s : Tries N U Chan Msg) :
    TryAct N U Chan Msg → Option (Tries N U Chan Msg)
  | .try_in c =>
      let p := net.role c .input
      if s.comm.pc p = .idle then
        (s.comm.try_in p c).map fun r =>
          { comm := r.1, tries := s.tries ++ [⟨c, s.comm, r.1, r.2⟩] }
      else none
  | .comm act => (s.comm.step net pun act).map fun t => { s with comm := t }

/-- No writer is registered when `try_in` is called. -/
def NoWriter (s : Tries N U Chan Msg) : TryAct N U Chan Msg → Prop
  | .try_in c => s.comm.waiting c = none
  | .comm _ => True

/-- `try_in` has been `in` without the waiting, and no writer is left behind. -/
def AsIn (net : Net N Chan) (pun : Fin N → Fin U) (s : Tries N U Chan Msg) : Prop :=
  (∀ x ∈ s.tries, x.LikeIn net pun) ∧ ∀ c, ¬ s.comm.Stranded net c

end Tries

variable {net : Net N Chan} {pun : Fin N → Fin U} {c : Chan}

namespace Comm

variable {s t : Comm N U Chan Msg}

/-- Nobody is stranded while all goes on by `in` and `out`. -/
theorem Inv.not_stranded (h : Inv net s) (c : Chan) : ¬ s.Stranded net c := by
  intro hstranded
  obtain ⟨hwaits, hreg, hwake, hsched, hnot⟩ := hstranded
  obtain ⟨b, hshow, _⟩ := party_waits hwaits
  have hwriter : (s.view net c).writer =
      .wait _ b (s.sched_state (net.role c .output)) (s.runnable (net.role c .output)) :=
    hshow _ _ _
  obtain ⟨h1, _⟩ | ⟨_, ⟨h1, _⟩ | ⟨h1, _⟩ | ⟨_, _, h1⟩⟩ := hwriter ▸ (h.meets c).writer_waits
  · exact hreg h1
  · exact absurd (hwake.symm.trans h1) (by simp)
  · exact absurd (hsched.symm.trans h1) (by simp)
  · exact hnot h1

/-- Whom the reader finds registered when it is in no call. -/
theorem Inv.registered (h : Inv net s) (hidle : s.pc (net.role c .input) = .idle)
    {w : Fin N} (hw : s.waiting c = some w) :
    w = net.role c .output ∧ s.ptr c = some w ∧ (s.party net c .output).waits = true ∧
      ¬ (s.sched_state w = .ready ∧ s.runnable w = true) := by
  have haway : (s.view net c).reader = .away := by
    change s.party net c .input = .away
    rw [party, hidle, Pc.party]
  obtain h1 | ⟨h1, h2, h3⟩ | ⟨_, _, h3⟩ | ⟨_, _, h3⟩ := (h.meets c).holder
  · exact absurd (hw.symm.trans h1) (by simp)
  · obtain rfl : w = net.role c .output := Option.some.inj (hw.symm.trans h1)
    refine ⟨rfl, h2, h3, ?_⟩
    obtain ⟨b, hshow, _⟩ := party_waits (s := s) (c := c) (e := .output) h3
    have hwriter : (s.view net c).writer =
        .wait _ b (s.sched_state (net.role c .output)) (s.runnable (net.role c .output)) :=
      hshow _ _ _
    have hun := ((hwriter ▸ (h.meets c).writer_waits).registered h1).2.2
    intro hready
    obtain ⟨_, hst, _⟩ | ⟨_, hst, _⟩ := hun
    · exact absurd (hready.1.symm.trans hst) (by simp)
    · exact absurd (hready.1.symm.trans hst) (by simp)
  · rw [haway] at h3
    cases h3
  · rw [haway] at h3
    cases h3

/-- **What `in` does** where a writer is registered: it wakes the writer. -/
theorem Inv.inAlone_wakes (h : Inv net s) (hidle : s.pc (net.role c .input) = .idle)
    {w : Fin N} (hw : s.waiting c = some w) :
    ∃ t, s.inAlone net pun c = some t ∧ t.sched_state w = .ready ∧ t.runnable w = true := by
  obtain ⟨hwriter, hptr, hwaits, _⟩ := h.registered hidle hw
  have hne : w ≠ net.role c .input := by
    intro heq
    exact net.distinct c (heq.symm.trans hwriter)
  -- a writer that has not given up the processor is runnable
  have hrun : s.sched_state w ≠ .waiting → s.runnable w = true := by
    intro hst
    obtain ⟨b, hshow, _⟩ := party_waits hwaits
    have hparty : (s.view net c).writer =
        .wait _ b (s.sched_state (net.role c .output)) (s.runnable (net.role c .output)) :=
      hshow _ _ _
    have hreg : (s.view net c).waiting = some (net.role c .output) := hw.trans (by rw [hwriter])
    obtain ⟨_, _, hr⟩ | ⟨_, hst', _⟩ :=
      ((hparty ▸ (h.meets c).writer_waits).registered hreg).2.2
    · rw [hwriter]
      exact hr
    · rw [hwriter] at hst
      exact absurd hst' hst
  by_cases hst : s.sched_state w = .waiting
  · simp [inAlone, exec, Comm.step, Comm.run, Comm.in, Comm.ret, goto, transfer, hidle, hw,
      hptr, hst]
  · simp [inAlone, exec, Comm.step, Comm.run, Comm.in, Comm.ret, goto, transfer, hidle, hw,
      hptr, hst, hrun hst]

/-- `try_in` with a writer registered does not wake it, as `in` does. -/
theorem Inv.try_in_unlike (h : Inv net s) (hidle : s.pc (net.role c .input) = .idle)
    {w : Fin N} (hw : s.waiting c = some w) {result : Bool}
    (htry : s.try_in (net.role c .input) c = some (t, result)) :
    ¬ Try.LikeIn net pun ⟨c, s, t, result⟩ := by
  obtain ⟨_, hptr, _, hnot⟩ := h.registered hidle hw
  have hwakes : ∃ u, s.inAlone net pun c = some u ∧ u.sched_state w = .ready ∧
      u.runnable w = true := h.inAlone_wakes hidle hw
  obtain ⟨u, hu, hst, hrun⟩ := hwakes
  simp only [Comm.try_in, hw, hptr, Option.map_some, Option.some.injEq, Prod.mk.injEq] at htry
  obtain ⟨rfl, _⟩ := htry
  intro hlike
  simp only [Try.LikeIn, hw, hu] at hlike
  obtain ⟨_, v, hv, _, _, _, hst', hrun'⟩ := hlike
  obtain rfl := Option.some.inj hv
  rw [hst] at hst'
  rw [hrun] at hrun'
  exact hnot ⟨hst', hrun'⟩

/-- `try_in` with a writer registered leaves it behind. -/
theorem Inv.try_in_strands (h : Inv net s) (hidle : s.pc (net.role c .input) = .idle)
    {w : Fin N} (hw : s.waiting c = some w) {result : Bool}
    (htry : s.try_in (net.role c .input) c = some (t, result)) : t.Stranded net c := by
  obtain ⟨rfl, hptr, hwaits, hnot⟩ := h.registered hidle hw
  simp only [Comm.try_in, hw, hptr, Option.map_some, Option.some.injEq, Prod.mk.injEq] at htry
  obtain ⟨rfl, _⟩ := htry
  have hne := (net.distinct c).symm
  refine ⟨?_, ?_, ?_, ?_, ?_⟩
  · simpa [party, buf, Comm.ret, goto, transfer, hne] using hwaits
  · simp [Comm.ret, goto, transfer]
  · simp [party, Comm.ret, goto, transfer, Pc.party]
  · simp [party, Comm.ret, goto, transfer, Pc.party]
  · simpa [Comm.ret, goto, transfer] using hnot

end Comm

namespace Tries

variable {s t : Tries N U Chan Msg} {act : TryAct N U Chan Msg}

/-- The invariant, and the calls of `try_in` as they should be. -/
def Sound (net : Net N Chan) (pun : Fin N → Fin U) (s : Tries N U Chan Msg) : Prop :=
  Comm.Inv net s.comm ∧ ∀ x ∈ s.tries, x.LikeIn net pun

theorem Sound.asIn (h : Sound net pun s) : s.AsIn net pun :=
  ⟨h.2, fun c => h.1.not_stranded c⟩

/-- A step on which `try_in` finds no writer. -/
theorem Sound.step (h : Sound net pun s) (hC : s.NoWriter act)
    (hstep : s.step net pun act = some t) : Sound net pun t := by
  obtain ⟨hinv, htries⟩ := h
  cases act with
  | try_in c =>
      have hnone : s.comm.waiting c = none := hC
      simp only [Tries.step, Comm.try_in, hnone] at hstep
      split at hstep
      next =>
        obtain rfl := Option.some.inj hstep
        refine ⟨hinv, ?_⟩
        intro x hx
        obtain hx | hx := List.mem_append.mp hx
        · exact htries x hx
        · rw [List.mem_singleton.mp hx, Try.LikeIn]
          simp only [hnone]
          exact ⟨trivial, trivial⟩
      next => cases hstep
  | comm act =>
      obtain ⟨u, hu, rfl⟩ := Option.map_eq_some_iff.mp hstep
      exact ⟨hinv.step hu, htries⟩

/-- A call of `try_in`, and whether it finds a writer. -/
theorem Sound.try_in_iff (h : Sound net pun s)
    (hstep : s.step net pun (.try_in c) = some t) :
    ((∀ x ∈ t.tries, x.LikeIn net pun) ↔ s.comm.waiting c = none) ∧
      ((∀ d, ¬ t.comm.Stranded net d) ↔ s.comm.waiting c = none) := by
  have hgood : s.comm.waiting c = none →
      (∀ x ∈ t.tries, x.LikeIn net pun) ∧ ∀ d, ¬ t.comm.Stranded net d :=
    fun hnone => (Sound.step h (show s.NoWriter (.try_in c) from hnone) hstep).asIn
  refine ⟨⟨?_, fun hnone => (hgood hnone).1⟩, ⟨?_, fun hnone => (hgood hnone).2⟩⟩
  all_goals
    intro hall
    by_contra hne
    obtain ⟨w, hw⟩ := Option.ne_none_iff_exists'.mp hne
    simp only [Tries.step] at hstep
    split at hstep
    swap
    · cases hstep
    next hidle =>
      obtain ⟨r, hr, rfl⟩ := Option.map_eq_some_iff.mp hstep
      first
      | exact hall c (h.1.try_in_strands hidle hw hr)
      | exact h.1.try_in_unlike hidle hw hr
          (hall _ (List.mem_append_right _ (List.mem_singleton.mpr rfl)))

/-- A step on which `try_in` finds a writer. -/
theorem Sound.step_writer (h : Sound net pun s) (hC : ¬ s.NoWriter act)
    (hstep : s.step net pun act = some t) : ¬ t.AsIn net pun := by
  cases act with
  | try_in c =>
      intro hasIn
      exact hC ((h.try_in_iff hstep).2.mp hasIn.2)
  | comm act => exact absurd trivial hC

theorem sound_init (proc : Fin N) (msg : Msg) :
    Sound net pun (init N U Chan proc msg) :=
  ⟨Comm.inv_init proc msg, by simp [init]⟩

end Tries

/-- **`try_in` is `in` without the waiting exactly as long as it finds no
writer.**  A call that finds one neither has the effect of `in` nor leaves
nobody behind. -/
theorem try_in_exact (net : Net N Chan) (pun : Fin N → Fin U) (proc : Fin N) (msg : Msg)
    (acts : List (TryAct N U Chan Msg)) {s : Tries N U Chan Msg}
    (hrun : exec (Tries.step net pun) (Tries.init N U Chan proc msg) acts = some s) :
    (Throughout (Tries.step net pun) (Tries.AsIn net pun) (Tries.init N U Chan proc msg) acts ↔
      Along (Tries.step net pun) Tries.NoWriter (Tries.init N U Chan proc msg) acts) ∧
    (Along (Tries.step net pun) Tries.NoWriter (Tries.init N U Chan proc msg) acts →
      ∀ c t, s.step net pun (.try_in c) = some t →
        ((∀ x ∈ t.tries, x.LikeIn net pun) ↔ s.comm.waiting c = none) ∧
          ((∀ d, ¬ t.comm.Stranded net d) ↔ s.comm.waiting c = none)) := by
  refine ⟨?_, ?_⟩
  · exact throughout_iff_along (I := Tries.Sound net pun)
      (fun _ _ _ h hC hstep => h.step hC hstep) (fun _ h => h.asIn)
      (fun _ _ _ h hC hstep => h.step_writer hC hstep) hrun (Tries.sound_init proc msg)
  · intro hC c t hstep
    have hsound : s.Sound net pun :=
      exec_invariant (I := Tries.Sound net pun) (fun _ _ _ h hC hstep => h.step hC hstep)
        hrun hC (Tries.sound_init proc msg)
    exact hsound.try_in_iff hstep

/-- The reader tries before the writer comes. -/
theorem try_in_exact_no_writer :
    Throughout (Tries.step oneChannel fun _ : Fin 2 => (0 : Fin 1))
      (Tries.AsIn oneChannel fun _ => 0) (Tries.init 2 1 Unit 0 ())
      [.try_in (), .comm (.out () ()), .comm (.run 1)] := by
  refine (try_in_exact oneChannel (fun _ => 0) 0 () _ rfl).1.mpr ?_
  refine ⟨rfl, ?_⟩
  intro _ _
  refine ⟨trivial, ?_⟩
  intro _ _
  refine ⟨trivial, ?_⟩
  intro _ _
  trivial

/-- **A writer left behind.**  The writer has registered itself and given up the
processor when the reader calls `try_in`. -/
theorem try_in_strands_writer :
    ¬ ∀ acts, Throughout (Tries.step oneChannel fun _ : Fin 2 => (0 : Fin 1))
      (Tries.AsIn oneChannel fun _ => 0) (Tries.init 2 1 Unit 0 ()) acts := by
  intro hall
  have hlast := (hall
    [.comm (.out () ()), .comm (.run 1), .comm (.run 1), .try_in ()]).last rfl
  exact hlast.2 () ⟨rfl, by decide, rfl, rfl, by decide⟩

end Cxp
