import Cxp.RunInduction
import Mathlib.Logic.Function.Basic

/-!
# The elapsed-time clock (`timer.c`, `hardware.c`)

The elapsed-time timer of processor 0 counts down from `Tick` and reloads.
A reload makes an interrupt pending, and its handler adds `Tick` to
`currentTime` when interrupts are next enabled there.  `GetCurrentTime` reads
the timer between two loads of `currentTime`, and tries again when they differ.

Two equal loads show that no handler has run around the reading of the timer.
They do not show that every reload has been handled: a reading is `behind` by
the ticks which were not (`ClockInv.reading`), and is right exactly when the
call had by then lasted as long as they amount to (`clock_true_iff`).

A process can be preempted inside `GetCurrentTime`, and the handler of the
timeout interrupt calls it, so that any number of calls may be under way.
-/

namespace Cxp

open Run

/-- Time units per tick. -/
def Tick : Int := 1000000000

/-- Where a caller is in `GetCurrentTime`.  `began` is the true time of the
call.  With the value `t` of the timer are kept the true time at which it was
read and how much `currentTime` was `behind` the reloads then. -/
inductive GetTimePc
  | outside
  | called (began : Int)
  | loaded (began c : Int)
  | timed (began cc t readAt behind : Int)
  deriving DecidableEq

/-- A call that has returned: the true times of call and return, and the
value. -/
structure Reading where
  began : Int
  ended : Int
  value : Int
  deriving DecidableEq

/-- The clock, and the calls of `GetCurrentTime` by the callers `P`.  Of the
fields, `now` is the true elapsed time, `reloaded` the part of it counted by
complete runs of the counter, and `readings` the calls that have returned. -/
structure Clock (P : Type) where
  now : Int
  counter : Int
  reloaded : Int
  currentTime : Int
  pending : Bool
  enabled : Bool
  pc : P → GetTimePc
  readings : List Reading

/-- Time passes; the counter reloads; the pending interrupt is handled;
interrupts are masked and unmasked; a caller calls `GetCurrentTime` or goes
on in it. -/
inductive ClockAct (P : Type)
  | pass (d : Nat)
  | reload
  | interrupt
  | disable
  | enable
  | call (p : P)
  | go (p : P)

namespace Clock

variable {P : Type} [DecidableEq P]

/-- The clock when the timer has just been started. -/
def init (P : Type) : Clock P where
  now := 0
  counter := Tick
  reloaded := 0
  currentTime := 0
  pending := false
  enabled := true
  pc := fun _ => .outside
  readings := []

/-- The ticks counted by the timer which no handler has added yet. -/
def unhandled (s : Clock P) : Int := s.reloaded - s.currentTime

/-- Caller `p` goes on. -/
def goto (s : Clock P) (p : P) (pc : GetTimePc) : Clock P :=
  { s with pc := Function.update s.pc p pc }

def handle_elapsed_time_interrupt (s : Clock P) : Clock P :=
  { s with currentTime := s.currentTime + Tick }

/-- One access of `GetCurrentTime` by `p`. -/
def getCurrentTime (s : Clock P) (p : P) : Option (Clock P) :=
  match s.pc p with
  | .outside => none
  | .called began => some (s.goto p (.loaded began s.currentTime))
  | .loaded began c =>
      some (s.goto p (.timed began c s.counter s.now s.unhandled))
  | .timed began cc t _ _ =>
      let c := s.currentTime
      if c ≠ cc then
        some (s.goto p (.loaded began c))
      else
        some { s.goto p .outside with
          readings := ⟨began, s.now, (Tick - t) + c⟩ :: s.readings }

def step (s : Clock P) : ClockAct P → Option (Clock P)
  | .pass d =>
      if (d : Int) ≤ s.counter then
        some { s with now := s.now + d, counter := s.counter - d }
      else none
  | .reload =>
      if s.counter = 0 then
        some { s with
          counter := Tick, reloaded := s.reloaded + Tick, pending := true }
      else none
  | .interrupt =>
      if s.pending && s.enabled then
        some { s.handle_elapsed_time_interrupt with pending := false }
      else none
  | .disable => some { s with enabled := false }
  | .enable => some { s with enabled := true }
  | .call p =>
      if s.pc p = .outside then some (s.goto p (.called s.now)) else none
  | .go p => s.getCurrentTime p

end Clock

/-- The value is the true elapsed time at an instant between the call and the
return. -/
def Reading.Accurate (r : Reading) : Prop :=
  ∃ instant, r.began ≤ instant ∧ instant ≤ r.ended ∧ r.value = instant

/-- Every value returned is accurate, and of two calls one after the other the
later does not return the smaller value. -/
structure ClockTrue {P : Type} (s : Clock P) : Prop where
  accurate : ∀ r ∈ s.readings, r.Accurate
  forward : ∀ r ∈ s.readings, ∀ r' ∈ s.readings,
    r.ended ≤ r'.began → r.value ≤ r'.value

/-- The condition on a step: when a call returns, the ticks unhandled at its
reading of the timer amount to no more than the call had lasted then. -/
def CaughtUp {P : Type} (s : Clock P) : ClockAct P → Prop
  | .go p => ∀ began cc t readAt behind,
      s.pc p = .timed began cc t readAt behind → s.currentTime = cc →
      began + behind ≤ readAt
  | _ => True

section Invariant

variable {P : Type} {s t : Clock P}

/-- Accurate readings do not go backwards. -/
theorem clockTrue_of_accurate (h : ∀ r ∈ s.readings, r.Accurate) :
    ClockTrue s := by
  refine ⟨h, ?_⟩
  intro r hr r' hr' hle
  obtain ⟨i, _, hi, hv⟩ := h r hr
  obtain ⟨i', hi', _, hv'⟩ := h r' hr'
  omega

/-- What a caller knows.  While `currentTime` is still the value loaded before
the timer was read, it is the value at the reading of the timer too. -/
def CallOk (s : Clock P) : GetTimePc → Prop
  | .outside => True
  | .called began => began ≤ s.now
  | .loaded began c => began ≤ s.now ∧ c ≤ s.currentTime
  | .timed began cc t readAt behind =>
      began ≤ readAt ∧ readAt ≤ s.now ∧ 0 ≤ behind ∧ cc ≤ s.currentTime ∧
        (s.currentTime = cc → (Tick - t) + cc + behind = readAt)

/-- What every step keeps. -/
structure ClockInv (s : Clock P) : Prop where
  counting : 0 ≤ s.counter ∧ s.counter ≤ Tick
  elapsed : s.now = s.reloaded + (Tick - s.counter)
  handled : s.currentTime + (if s.pending then Tick else 0) ≤ s.reloaded
  calls : ∀ p, CallOk s (s.pc p)

theorem tick_pos : 0 < Tick := by
  decide

/-- Time and `currentTime` only grow: what a caller knows stays true. -/
theorem CallOk.later {pc : GetTimePc} (h : CallOk s pc) (hnow : s.now ≤ t.now)
    (hcurrent : s.currentTime ≤ t.currentTime) : CallOk t pc := by
  cases pc with
  | outside => trivial
  | called began => exact Int.le_trans h hnow
  | loaded began c =>
      exact ⟨Int.le_trans h.1 hnow, Int.le_trans h.2 hcurrent⟩
  | timed began cc t' readAt behind =>
      obtain ⟨hb, hr, hbehind, hcc, hread⟩ := h
      refine ⟨hb, Int.le_trans hr hnow, hbehind, Int.le_trans hcc hcurrent, ?_⟩
      intro heq
      -- `currentTime` was never larger in between
      exact hread (by omega)

theorem ClockInv.unhandled_nonneg (h : ClockInv s) : 0 ≤ s.unhandled := by
  have hhandled := h.handled
  have htick := tick_pos
  unfold Clock.unhandled
  split at hhandled <;> omega

/-- **What a reading is worth.**  A call that returns has read the timer while
`currentTime` was the value it adds, and so its value and the ticks then
unhandled make up the true time of that reading. -/
theorem ClockInv.reading (h : ClockInv s) {p : P}
    {began cc t readAt behind : Int}
    (hpc : s.pc p = .timed began cc t readAt behind)
    (hsame : s.currentTime = cc) :
    (Tick - t) + s.currentTime + behind = readAt ∧
      began ≤ readAt ∧ readAt ≤ s.now ∧ 0 ≤ behind := by
  have hcall := h.calls p
  rw [hpc] at hcall
  obtain ⟨hb, hr, hbehind, -, hread⟩ := hcall
  exact ⟨hsame ▸ hread hsame, hb, hr, hbehind⟩

theorem clockInv_init : ClockInv (Clock.init P) := by
  have htick := tick_pos
  refine ⟨⟨?_, ?_⟩, ?_, ?_, fun _ => trivial⟩ <;> simp [Clock.init]
  omega

/-- The reading of a call that returns is accurate just when the clock had
caught up. -/
theorem ClockInv.accurate_iff (h : ClockInv s) {p : P}
    {began cc t readAt behind : Int}
    (hpc : s.pc p = .timed began cc t readAt behind)
    (hsame : s.currentTime = cc) :
    (Reading.mk began s.now ((Tick - t) + s.currentTime)).Accurate ↔
      began + behind ≤ readAt := by
  obtain ⟨hread, hb, hr, hbehind⟩ := h.reading hpc hsame
  constructor
  · intro hacc
    obtain ⟨i, hi, -, hv⟩ := hacc
    simp only at hi hv
    omega
  · intro hle
    exact ⟨_, by simp only; omega, by simp only; omega, rfl⟩

variable [DecidableEq P]

/-- A caller goes on in its call. -/
theorem ClockInv.goto (h : ClockInv s) {p : P} {pc : GetTimePc}
    (hpc : CallOk s pc) : ClockInv (s.goto p pc) := by
  refine ⟨h.counting, h.elapsed, h.handled, ?_⟩
  intro r
  simp only [Clock.goto]
  by_cases hr : r = p
  · subst hr
    rw [Function.update_self]
    exact hpc.later (Int.le_refl _) (Int.le_refl _)
  · rw [Function.update_of_ne hr]
    exact (h.calls r).later (Int.le_refl _) (Int.le_refl _)

/-- One access of `GetCurrentTime` keeps the invariant. -/
theorem ClockInv.getCurrentTime (h : ClockInv s) {p : P}
    (hstep : s.getCurrentTime p = some t) : ClockInv t := by
  have hcall := h.calls p
  unfold Clock.getCurrentTime at hstep
  split at hstep <;> rename_i hpc
  · cases hstep
  · cases hstep
    rw [hpc] at hcall
    exact h.goto ⟨hcall, Int.le_refl _⟩
  · cases hstep
    rw [hpc] at hcall
    refine h.goto ⟨hcall.1, Int.le_refl _, h.unhandled_nonneg, hcall.2, ?_⟩
    intro heq
    have helapsed := h.elapsed
    unfold Clock.unhandled
    omega
  · rw [hpc] at hcall
    obtain ⟨hb, hr, -⟩ := hcall
    simp only at hstep
    split at hstep
    · cases hstep
      exact h.goto ⟨Int.le_trans hb hr, Int.le_refl _⟩
    · cases hstep
      have hout : ClockInv (s.goto p .outside) := h.goto trivial
      exact ⟨hout.counting, hout.elapsed, hout.handled, hout.calls⟩

/-- Every step keeps the invariant. -/
theorem ClockInv.step (h : ClockInv s) {act : ClockAct P}
    (hstep : s.step act = some t) : ClockInv t := by
  obtain ⟨⟨hlow, hhigh⟩, helapsed, hhandled, hcalls⟩ := id h
  have htick := tick_pos
  cases act with
  | pass d =>
      obtain ⟨hle, hstep⟩ := Option.ite_none_right_eq_some.mp hstep
      cases hstep
      refine ⟨⟨?_, ?_⟩, ?_, hhandled, ?_⟩
      · simp only
        omega
      · simp only
        omega
      · simp only
        omega
      · intro r
        exact (hcalls r).later (by simp only; omega) (Int.le_refl _)
  | reload =>
      obtain ⟨hzero, hstep⟩ := Option.ite_none_right_eq_some.mp hstep
      cases hstep
      refine ⟨⟨by simp only; omega, Int.le_refl _⟩, ?_, ?_, ?_⟩
      · simp only
        omega
      · -- a second reload before the handler runs adds nothing to `pending`
        simp only
        split at hhandled <;> simp only [if_true] <;> omega
      · intro r
        exact (hcalls r).later (Int.le_refl _) (Int.le_refl _)
  | interrupt =>
      simp only [Clock.step, Bool.and_eq_true] at hstep
      split at hstep
      · rename_i hboth
        cases hstep
        rw [if_pos hboth.1] at hhandled
        refine ⟨⟨hlow, hhigh⟩, helapsed, ?_, ?_⟩
        · simpa [Clock.handle_elapsed_time_interrupt] using hhandled
        · intro r
          refine (hcalls r).later (Int.le_refl _) ?_
          simp only [Clock.handle_elapsed_time_interrupt]
          omega
      · cases hstep
  | disable =>
      cases hstep
      exact ⟨⟨hlow, hhigh⟩, helapsed, hhandled, fun r =>
        (hcalls r).later (Int.le_refl _) (Int.le_refl _)⟩
  | enable =>
      cases hstep
      exact ⟨⟨hlow, hhigh⟩, helapsed, hhandled, fun r =>
        (hcalls r).later (Int.le_refl _) (Int.le_refl _)⟩
  | call p =>
      obtain ⟨-, hstep⟩ := Option.ite_none_right_eq_some.mp hstep
      cases hstep
      exact h.goto (Int.le_refl _)
  | go p => exact h.getCurrentTime hstep

/-- A step either leaves the readings as they are, or is a return. -/
theorem Clock.readings_cases {act : ClockAct P} (hstep : s.step act = some t) :
    t.readings = s.readings ∨
      ∃ p began cc t' readAt behind, act = .go p ∧
        s.pc p = .timed began cc t' readAt behind ∧ s.currentTime = cc ∧
        t.readings = ⟨began, s.now, (Tick - t') + s.currentTime⟩ :: s.readings := by
  cases act with
  | go p =>
      simp only [Clock.step, Clock.getCurrentTime] at hstep
      split at hstep <;> rename_i hpc
      · cases hstep
      · cases hstep
        exact Or.inl rfl
      · cases hstep
        exact Or.inl rfl
      · split at hstep
        · cases hstep
          exact Or.inl rfl
        · rename_i hsame
          cases hstep
          exact Or.inr ⟨p, _, _, _, _, _, rfl, hpc, not_not.mp hsame, rfl⟩
  | _ =>
      simp only [Clock.step, Option.ite_none_right_eq_some, Option.some.injEq] at hstep
      grind [Clock.goto, Clock.handle_elapsed_time_interrupt]

/-- A step that meets the condition keeps the clock true. -/
theorem ClockInv.true_step (h : ClockInv s) (htrue : ClockTrue s)
    {act : ClockAct P} (hcaught : CaughtUp s act)
    (hstep : s.step act = some t) : ClockTrue t := by
  apply clockTrue_of_accurate
  rcases Clock.readings_cases hstep with
    heq | ⟨p, began, cc, t', readAt, behind, rfl, hpc, hsame, heq⟩
  · rw [heq]
    exact htrue.accurate
  · rw [heq]
    intro r hr
    rcases List.mem_cons.mp hr with rfl | hr
    · exact (h.accurate_iff hpc hsame).mpr (hcaught _ _ _ _ _ hpc hsame)
    · exact htrue.accurate r hr

/-- A step that fails the condition returns a value that is not accurate. -/
theorem ClockInv.not_true_step (h : ClockInv s) {act : ClockAct P}
    (hcaught : ¬ CaughtUp s act) (hstep : s.step act = some t) :
    ¬ ClockTrue t := by
  intro htrue
  apply hcaught
  cases act with
  | go p =>
      intro began cc t' readAt behind hpc hsame
      apply (h.accurate_iff hpc hsame).mp
      apply htrue.accurate
      simp only [Clock.step, Clock.getCurrentTime, hpc] at hstep
      rw [if_neg (not_not.mpr hsame)] at hstep
      cases hstep
      exact List.mem_cons_self
  | _ => trivial

end Invariant

variable {P : Type} [DecidableEq P]

/-- The clock is accurate and never goes backwards, through exactly the runs
in which every call returns on a reading of the timer at which the ticks that
were still unhandled amounted to no more than the call had lasted. -/
theorem clock_true_iff {acts : List (ClockAct P)} {t : Clock P}
    (hrun : exec Clock.step (Clock.init P) acts = some t) :
    Throughout Clock.step ClockTrue (Clock.init P) acts ↔
      Along Clock.step CaughtUp (Clock.init P) acts := by
  apply throughout_iff_along (I := fun s => ClockInv s ∧ ClockTrue s) _ _ _ hrun
  · exact ⟨clockInv_init, clockTrue_of_accurate fun r hr => by cases hr⟩
  · intro s act t hI hcaught hstep
    exact ⟨hI.1.step hstep, hI.1.true_step hI.2 hcaught hstep⟩
  · intro s hI
    exact hI.2
  · intro s act t hI hcaught hstep
    exact hI.1.not_true_step hcaught hstep

/-- A handler runs between the two loads, so that the call tries again. -/
theorem clock_true_iff_retry :
    let acts : List (ClockAct Unit) :=
      [.pass 1000000000, .call (), .go (), .reload, .go (), .interrupt, .go (),
        .go (), .go ()]
    (∃ t, exec Clock.step (Clock.init Unit) acts = some t ∧
      t.readings = [⟨1000000000, 1000000000, 1000000000⟩]) ∧
    (Throughout Clock.step ClockTrue (Clock.init Unit) acts ↔
      Along Clock.step CaughtUp (Clock.init Unit) acts) :=
  ⟨⟨_, rfl, rfl⟩, clock_true_iff (t := _) rfl⟩

/-- With interrupts masked, the counter reloads between two calls, and the
second returns zero a full tick after the first returned a tick. -/
theorem clock_goes_back :
    ¬ ∀ (acts : List (ClockAct Unit)) (t : Clock Unit),
      exec Clock.step (Clock.init Unit) acts = some t →
      Throughout Clock.step ClockTrue (Clock.init Unit) acts := by
  intro hall
  have htrue := (hall [.pass 1000000000, .call (), .go (), .go (), .go (),
    .disable, .reload, .call (), .go (), .go (), .go ()] _ rfl).last rfl
  have hback := htrue.forward ⟨1000000000, 1000000000, 1000000000⟩ (by decide)
    ⟨1000000000, 1000000000, 0⟩ (by decide) (by decide)
  revert hback
  decide

end Cxp
