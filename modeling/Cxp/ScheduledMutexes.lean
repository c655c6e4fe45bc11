import Cxp.MutexClaims
import Cxp.ReadyBypass
import Cxp.SchedulerTally

/-!
# Mutexes under the scheduler (`mutex.c`, `comm.c`, `memory.c`, `sched.c`)

The mutexes of the channels, of the memory lists and of the termination stacks, claimed
by processes that are scheduled as in `Sched`.  Each exchange of `claim_mutex` is a step
of a process that has the processor; after five it yields.  It may be preempted anywhere
in the loop, and with the mutex claimed.

* A channel's mutex is claimed in `in`, `out`, `try_in` and a select.  With the mutex
  claimed a process may prepare to wait, but gives up the processor only after the
  release.
* `mutex_mem` is claimed while a select enables and disables timeouts, while a par builds
  its children, and by a process that terminates.
* The latter has the mutex of its processor's termination stack, and releases it with
  interrupts disabled, in the section in which it gives up the processor.

Which mutexes a process claims there, and how often, is left open.
-/

namespace Cxp

open Queues Run

inductive MutexId (U : Nat) (Chan : Type)
  | channel (c : Chan)
  | mutex_mem
  | termination (π : Fin U)
  deriving DecidableEq

/-- Whether a process that stands there, on the processor, claims the mutex. -/
def Code.claims {U : Nat} {Chan : Type} (π : Fin U) : Code → MutexId U Chan → Bool
  | .own, .channel _ | .enabling, .channel _ | .disabling, .channel _ => true
  | .enabling, .mutex_mem | .disabling, .mutex_mem | .par _ _ (_ + 1), .mutex_mem
  | .finishing, .mutex_mem => true
  | .ending, .termination σ => σ = π
  | _, _ => false

/-- A process may be in `claim_mutex` here, or have a mutex. -/
def Code.busy : Code → Bool
  | .prepared => true
  | code => code.yields

/-- The mutexes that it has while it claims one. -/
def Code.under {U : Nat} {Chan : Type} (π : Fin U) : Code → List (MutexId U Chan)
  | .finishing => [.termination π]
  | _ => []

/-- The scheduler and the mutexes.  `claim` is the mutex that a process is in
`claim_mutex` for, and how many exchanges it has made since it began or yielded; `held`
are those that it has claimed and not released, the last one first. -/
structure Contention (N U : Nat) (Chan : Type) where
  sched : Sched N U
  mutex : MutexId U Chan → Mutex
  claim : Fin N → Option (MutexId U Chan × Nat)
  held : Fin N → List (MutexId U Chan)

inductive ContentionAct (N U : Nat) (Chan : Type)
  /-- a step that is no step of `claim_mutex` or `release_mutex` -/
  | sched (act : SchedAct N U)
  /-- the process calls `claim_mutex` -/
  | claim_mutex (p : Fin N) (l : MutexId U Chan)
  | exchange (p : Fin N)
  | yield (p : Fin N)
  /-- the process releases the mutex that it has claimed last -/
  | release_mutex (p : Fin N)
  /-- it terminates, and releases the termination stack -/
  | finish (p : Fin N)

namespace Contention

variable {N U : Nat} {Chan : Type} [DecidableEq Chan]

def init (sys : Procs N U) (Chan : Type) : Contention N U Chan :=
  ⟨Sched.init sys, fun _ => init_mutex, fun _ => none, fun _ => []⟩

omit [DecidableEq Chan] in
/-- What a process may do besides.  In `claim_mutex` it returns from `yield`; with a
channel's mutex it prepares to wait; with that of the termination stack it takes the
stack, and not without. -/
def permits (m : Contention N U Chan) (act : SchedAct N U) : Bool :=
  act.actor.all fun p =>
    match m.claim p, m.held p, act with
    | some _, _, _ => (m.sched.live p).op = .enable
    | none, [], _ => (m.sched.live p).op ≠ .none ∨ (m.sched.live p).code ≠ .ending
    | none, [.channel _], .prepare _ => true
    | none, [.termination _], .run _ => (m.sched.live p).code = .ending
    | _, _, _ => false

/-- One round of the loop of `claim_mutex`, the `i + 1`-st since it began or yielded. -/
def exchange (m : Contention N U Chan) (p : Fin N) (l : MutexId U Chan) (i : Nat) :
    Contention N U Chan :=
  let (oldvalue, mutex) := (m.mutex l).exchange
  let m := { m with mutex := Function.update m.mutex l mutex }
  if oldvalue = false then
    { m with
      claim := Function.update m.claim p none
      held := Function.update m.held p (l :: m.held p) }
  else { m with claim := Function.update m.claim p (some (l, i + 1)) }

def release (m : Contention N U Chan) (p : Fin N) (l : MutexId U Chan)
    (held : List (MutexId U Chan)) : Contention N U Chan :=
  { m with
    mutex := Function.update m.mutex l (release_mutex (m.mutex l))
    held := Function.update m.held p held }

/-- One step. -/
def step (sys : Procs N U) (m : Contention N U Chan) :
    ContentionAct N U Chan → Option (Contention N U Chan)
  | .sched act =>
      if m.permits act then (m.sched.step sys act).map fun s => { m with sched := s } else none
  | .claim_mutex p l =>
      if m.claim p = none ∧ m.held p = (m.sched.live p).code.under (sys.pun p) ∧
          m.sched.May sys p (·.claims (sys.pun p) l) then
        some { m with claim := Function.update m.claim p (some (l, 0)) }
      else none
  | .exchange p =>
      match m.claim p with
      | some (l, i) =>
          if i < TRIALS_BEFORE_YIELD ∧ m.sched.Runs sys p ∧ (m.sched.live p).op = .none then
            some (m.exchange p l i)
          else none
      | none => none
  | .yield p =>
      match m.claim p with
      | some (l, i) =>
          if i = TRIALS_BEFORE_YIELD then
            (m.sched.step sys (.yield p)).map fun s =>
              { m with sched := s, claim := Function.update m.claim p (some (l, 0)) }
          else none
      | none => none
  | .release_mutex p =>
      match m.claim p, m.held p with
      | none, l :: held =>
          if l ≠ .termination (sys.pun p) ∧ m.sched.Runs sys p ∧ (m.sched.live p).op = .none then
            some (m.release p l held)
          else none
      | _, _ => none
  | .finish p =>
      if m.claim p = none ∧ m.held p = [.termination (sys.pun p)] ∧
          (m.sched.live p).code = .finishing ∧ (m.sched.live p).op = .none then
        (m.sched.step sys (.run p)).map fun s =>
          { m.release p (.termination (sys.pun p)) [] with sched := s }
      else none

omit [DecidableEq Chan] in
/-- The process is between the call of `claim_mutex` and the release. -/
def Busy (m : Contention N U Chan) (p : Fin N) : Prop := m.claim p ≠ none ∨ m.held p ≠ []

/-- Where a process on the processor stands in its code, what it is about to do, what it
claims and what it has claimed. -/
inductive Phase (π : Fin U) : Code → Op N → Option (MutexId U Chan × Nat) →
    List (MutexId U Chan) → Prop
  | outside {code : Code} {op : Op N} (hcode : code ≠ .finishing) : Phase π code op none []
  | claims {code : Code} {op : Op N} {l : MutexId U Chan} {i : Nat}
      (hcode : code.claims π l = true) (hop : op = .none ∨ op = .enable)
      (hi : i ≤ TRIALS_BEFORE_YIELD) : Phase π code op (some (l, i)) (code.under π)
  | inside {code : Code} {l : MutexId U Chan}
      (hcode : code.claims π l = true ∨ code = .prepared ∧ ∃ c, l = .channel c) :
      Phase π code .none none (l :: code.under π)
  /-- on the termination stack, before it claims `mutex_mem` and after -/
  | finishing : Phase π .finishing .none none [.termination π]

/-- What holds in every state that is reached. -/
structure Inv (sys : Procs N U) (m : Contention N U Chan) : Prop where
  tally : m.sched.Tally sys
  phase : ∀ p, Phase (sys.pun p) (m.sched.live p).code (m.sched.live p).op (m.claim p) (m.held p)
  busy : ∀ p, m.Busy p → p ∉ m.sched.queues.ipq (sys.pun p) ∧ sys.idler (sys.pun p) ≠ p
  claimed : ∀ l, (m.mutex l).claimed = true ↔ ∃ p, l ∈ m.held p
  alone : ∀ l p q, l ∈ m.held p → l ∈ m.held q → p = q

end Contention

namespace Sched

variable {N U : Nat} {Chan : Type} {sys : Procs N U} {s t : Sched N U} {act : SchedAct N U}
  {π : Fin U} {p : Fin N}

theorem busy_base {code : Code} (h : code.busy = true) : code.base = 1 := by
  cases code with
  | par _ _ left =>
      cases left with
      | zero => cases h
      | succ left => rfl
  | unborn | relinquish _ | switched _ | dead => cases h
  | _ => rfl

/-- Nothing that it could wait for has come about. -/
theorem busy_woken {size : Nat → Prop} {seat : Fin N → Nat} (h : Books size seat s)
    (hbusy : (s.live p).code.busy = true) : s.woken p = 0 := by
  have hfamily := h.family p
  unfold FamilyOk at hfamily
  cases hcode : (s.live p).code with
  | par kind nc left =>
      rw [hcode] at hfamily hbusy
      cases left with
      | zero => cases hbusy
      | succ left =>
          obtain ⟨-, hchildren, -⟩ := hfamily
          have hne : s.children p ≠ 0 := by omega
          simp [woken, hcode, Code.awaits, met, hne]
  | unborn | relinquish _ | switched _ | dead =>
      rw [hcode] at hbusy
      cases hbusy
  | _ => exact woken_none (by rw [hcode]; rfl)

/-- It has one turn at most. -/
theorem busy_turns (h : Tally sys s) (hbusy : (s.live p).code.busy = true) :
    s.calls p = 0 ∧ s.turns sys p ≤ 1 := by
  obtain ⟨seat, hb, hbound⟩ := h.books
  have hw := busy_woken hb hbusy
  have hbal := hb.balanced p
  have howed := hb.owed p
  have hle := hbound p
  rw [hw, busy_base hbusy] at hbal
  omega

/-- Nobody puts it into a queue, nor gives it the processor out of turn. -/
theorem busy_not_enters (h : Tally sys s) (hbusy : (s.live p).code.busy = true)
    (hipq : p ∉ s.queues.ipq (sys.pun p)) (hstep : s.step sys act = some t) :
    ¬s.Enters act p := by
  have hstate := h.state p
  intro henters
  cases act with
  | build q child =>
      obtain rfl : child = p := henters
      rw [(built_unborn hstep).1] at hbusy
      cases hbusy
  | run q =>
      have hop : (s.live q).op = .schedule p := henters
      have hpos : 0 < s.calls p := Finset.card_pos.mpr ⟨q, by simp [hop]⟩
      have hcalls := (busy_turns h hbusy).1
      omega
  | freeProcess π q =>
      obtain ⟨rfl, hsched⟩ : q = p ∧ s.sched_state q = .waiting := henters
      have hwaits : (s.live q).code.waits = true := by
        cases step_cases hstep <;> assumption
      rw [hsched] at hstate
      cases hcode : (s.live q).code with
      | prepared =>
          rw [hcode] at hstate
          exact hstate.1 rfl
      | relinquish _ | switched _ =>
          rw [hcode] at hbusy
          cases hbusy
      | _ =>
          rw [hcode] at hwaits
          cases hwaits
  | handle π =>
      obtain ⟨-, halt⟩ | ⟨-, hmem⟩ := henters
      · rw [halt] at hstate
        cases hcode : (s.live p).code with
        | relinquish _ | switched _ =>
            rw [hcode] at hbusy
            cases hbusy
        | prepared | par _ _ _ =>
            rw [hcode] at hstate
            exact hstate.2 rfl
        | _ =>
            rw [hcode] at hstate
            exact hstate rfl
      · have hπ : sys.pun p = π := h.populated.chained.pun_ipq π p hmem
        exact hipq (hπ ▸ hmem)
  | _ => exact henters

/-- A process comes onto the termination stack by the step of its own that is for it. -/
theorem not_finishing (h : s.Settled sys) (hstep : s.step sys act = some t)
    (hactor : act.actor = some p) (hcode : (s.live p).code ≠ .finishing)
    (hown : (s.live p).op ≠ .none ∨ (s.live p).code ≠ .ending) :
    (t.live p).code ≠ .finishing := by
  cases step_cases hstep <;> cases hactor
  case prepare hmay | select hmay | found hmay | par hmay haccepts => simp [goto, Sched.par]
  case build child kind nc left hunborn hcode' hmay hpri hpun henqueue =>
    rw [enqueue_live henqueue]
    simp [goto]
  case wake q hwaits hmay =>
    unfold Sched.wake
    split <;> simpa [Sched.doing, ready] using hcode
  case free q hmay =>
    unfold Sched.free
    split <;> simpa [Sched.doing, altReady] using hcode
  case yield hmay hyield =>
    rw [(h.yield_stands hmay.1 hyield).2]
    exact hcode
  case sync parent hmay hparent =>
    unfold par_barr_sync
    dsimp only
    split <;> simp [goto, Sched.doing]
  case run hruns hrun =>
    cases run_cases hrun with
    | frees | freed | enable => simpa [Sched.doing, altReady] using hcode
    | waits | woken | altWaits | altReady | disabling | parWaits | parWoken => simp [goto]
    | schedule hop hschedule =>
        rw [((h.doing hruns .enable).schedule0_stands hschedule p).1]
        simpa [Sched.doing] using hcode
    | relinquish hop hcode' hrelinquish =>
        rw [(h.relinquish_stands hruns hrelinquish p).1]
        simp [goto]
    | @switched w hop hcode' => cases w <;> simp [goto, Wait.after]
    | ending hop hcode' => exact absurd hcode' (hown.resolve_left fun hne => hne hop)
    | finishing hop hcode' hfinish => exact absurd hcode' hcode

/-- Who yields stays where it is, and may be about to enable interrupts. -/
theorem yield_self {test : Code → Bool} (h : s.Settled sys) (hmay : s.May sys p test)
    (hstep : s.yield sys p = some t) :
    (t.live p).code = (s.live p).code ∧ ((t.live p).op = .none ∨ (t.live p).op = .enable) := by
  refine ⟨(h.yield_stands hmay.1 hstep).2, ?_⟩
  obtain ⟨queues, -, rfl⟩ | ⟨new, queues, -, hhands⟩ := yield_switch hmay.1.1 hstep
  · exact Or.inl hmay.2.1
  · right
    rw [(hhands.stands (h.doing hmay.1 .enable) (by simp) p).2]
    simp [Sched.doing]

/-- All that a process does is to enable interrupts, if it is about to. -/
theorem step_enables (hstep : s.step sys act = some t) (hactor : act.actor = some p)
    (hop : (s.live p).op = .enable) : t = s.doing p .none := by
  cases step_cases hstep <;> cases hactor
  case run hruns hrun =>
    simp only [Sched.run, hop, Option.some.injEq] at hrun
    exact hrun.symm
  all_goals exact absurd (hop.symm.trans (by assumption : s.May sys p _).2.1) (by simp)

end Sched

namespace Contention

variable {N U : Nat} {Chan : Type} [DecidableEq Chan] {sys : Procs N U}
  {m n : Contention N U Chan} {s t : Sched N U} {act : SchedAct N U} {p q : Fin N}
  {π : Fin U} {l k : MutexId U Chan} {i : Nat} {code : Code} {op : Op N}
  {claim : Option (MutexId U Chan × Nat)} {held : List (MutexId U Chan)}

section Phases

omit [DecidableEq Chan] in
theorem busy_of_claims (h : code.claims π l = true) : code.busy = true := by
  cases code with
  | par _ _ left => cases left <;> cases l <;> first | rfl | cases h
  | unborn | prepared | relinquish _ | switched _ | dead => cases l <;> cases h
  | _ => rfl

omit [DecidableEq Chan] in
/-- Where a process stands that claims or has claimed a mutex. -/
theorem Phase.busy (h : Phase π code op claim held) (hbusy : claim ≠ none ∨ held ≠ []) :
    code.busy = true ∧ (op = .none ∨ op = .enable) := by
  cases h with
  | outside => simp at hbusy
  | claims hcode hop => exact ⟨busy_of_claims hcode, hop⟩
  | inside hcode =>
      refine ⟨?_, Or.inl rfl⟩
      obtain hcode | ⟨rfl, -⟩ := hcode
      · exact busy_of_claims hcode
      · rfl
  | finishing => exact ⟨rfl, Or.inl rfl⟩

omit [DecidableEq Chan] in
/-- A process that has not been built claims nothing. -/
theorem Phase.unborn (h : Phase π .unborn op claim held) : claim = none ∧ held = [] := by
  by_contra hne
  have hbusy : claim ≠ none ∨ held ≠ [] := by
    by_contra hno
    rw [not_or, not_not, not_not] at hno
    exact hne hno
  have hcode := (h.busy hbusy).1
  cases hcode

omit [DecidableEq Chan] in
/-- In `claim_mutex`. -/
theorem Phase.claiming (h : Phase π code op (some (l, i)) held) :
    code.claims π l = true ∧ (op = .none ∨ op = .enable) ∧ i ≤ TRIALS_BEFORE_YIELD ∧
      held = code.under π := by
  cases h with
  | claims hcode hop hi => exact ⟨hcode, hop, hi, rfl⟩

omit [DecidableEq Chan] in
/-- With a mutex that is not that of the termination stack. -/
theorem Phase.holding (h : Phase π code op none (l :: held)) (hl : l ≠ .termination π) :
    l ∉ held ∧ Phase π code op none held := by
  cases h with
  | inside hcode =>
      by_cases hfin : code = .finishing
      · subst hfin
        exact ⟨by simpa [Code.under] using hl, .finishing⟩
      · have hunder : code.under π = ([] : List (MutexId U Chan)) := by
          cases code <;> first | rfl | exact absurd rfl hfin
        rw [hunder]
        exact ⟨by simp, .outside hfin⟩
  | finishing => exact absurd rfl hl

omit [DecidableEq Chan] in
/-- What a process is permitted to do leaves it in its phase, or in the next one. -/
theorem Phase.acts (h : Phase (sys.pun p) (m.sched.live p).code (m.sched.live p).op (m.claim p)
      (m.held p)) (hset : m.sched.Settled sys) (hpermits : m.permits act = true)
    (hstep : m.sched.step sys act = some t) (hactor : act.actor = some p) :
    Phase (sys.pun p) (t.live p).code (t.live p).op (m.claim p) (m.held p) := by
  unfold permits at hpermits
  rw [hactor, Option.all_some] at hpermits
  generalize hcode : (m.sched.live p).code = code at h hpermits
  generalize hop : (m.sched.live p).op = op at h hpermits
  generalize m.claim p = claim at h hpermits
  generalize m.held p = held at h hpermits
  cases h with
  | outside hne =>
      apply Phase.outside
      apply Sched.not_finishing hset hstep hactor (hcode ▸ hne)
      simpa [hcode, hop] using hpermits
  | claims hclaims hop' hi =>
      have henable : (m.sched.live p).op = .enable := by simpa [hop] using hpermits
      rw [Sched.step_enables hstep hactor henable]
      simp only [Sched.doing, Function.update_self, hcode]
      exact .claims hclaims (Or.inl rfl) hi
  | inside hclaims =>
      rename_i l
      cases l with
      | channel c =>
          have hunder : code.under (sys.pun p) = ([] : List (MutexId U Chan)) := by
            obtain hclaims | ⟨rfl, -⟩ := hclaims
            · cases code <;> simp_all [Code.claims, Code.under]
            · rfl
          rw [hunder] at hpermits ⊢
          cases act with
          | prepare q =>
              cases hactor
              cases Sched.step_cases hstep with
              | prepare hmay =>
                  simp only [Sched.goto, Function.update_self, hop]
                  exact .inside (Or.inr ⟨rfl, c, rfl⟩)
          | _ => cases hpermits
      | mutex_mem =>
          cases (code.under (sys.pun p) : List (MutexId U Chan)) <;> simp at hpermits
      | termination σ =>
          obtain ⟨rfl, rfl⟩ : code = .ending ∧ σ = sys.pun p := by
            obtain hclaims | ⟨-, c, hl⟩ := hclaims
            · cases code <;> simp_all [Code.claims]
            · cases hl
          cases act with
          | run q =>
              cases hactor
              cases Sched.step_cases hstep with
              | run hruns hrun =>
                  simp only [Sched.run, hop, hcode, Option.some.injEq] at hrun
                  subst hrun
                  simp only [Function.update_self]
                  exact .finishing
          | _ => cases hpermits
  | finishing => cases act <;> simp at hpermits

end Phases

section Steps

omit [DecidableEq Chan] in
/-- What a step of the scheduler leaves alone. -/
theorem Inv.moved (h : Inv sys m) (hstep : m.sched.step sys act = some t) :
    t.Tally sys ∧
      (∀ q, act.actor ≠ some q →
        Phase (sys.pun q) (t.live q).code (t.live q).op (m.claim q) (m.held q)) ∧
      ∀ q, m.Busy q → q ∉ t.queues.ipq (sys.pun q) ∧ sys.idler (sys.pun q) ≠ q := by
  refine ⟨h.tally.step hstep, fun q hq => ?_, fun q hq => ?_⟩
  · have hphase := h.phase q
    by_cases hbuild : ∃ p, act = .build p q
    · obtain ⟨p, rfl⟩ := hbuild
      obtain ⟨hunborn, hown⟩ := Sched.built_unborn hstep
      rw [hunborn] at hphase
      obtain ⟨hclaim, hheld⟩ := hphase.unborn
      rw [hclaim, hheld, hown]
      exact .outside (by simp)
    · have hstands := h.tally.settled.others hstep hq fun p heq => hbuild ⟨p, heq⟩
      rw [hstands.1, hstands.2]
      exact hphase
  · obtain ⟨hipq, hidle⟩ := h.busy q hq
    have hcode := ((h.phase q).busy hq).1
    obtain ⟨c, -, hturn⟩ := h.tally.populated.turns hstep
    exact ⟨hturn.not_mem_ipq h.tally.populated.chained
      (Sched.busy_not_enters h.tally hcode hipq hstep) hipq, hidle⟩

omit [DecidableEq Chan] in
/-- A process claims a mutex; it runs, and is not queued. -/
theorem Inv.claims (h : Inv sys m) {test : Code → Bool} (hmay : m.sched.May sys p test)
    (hcode : (m.sched.live p).code.claims (sys.pun p) l = true)
    (hheld : m.held p = (m.sched.live p).code.under (sys.pun p)) :
    Inv sys { m with claim := Function.update m.claim p (some (l, 0)) } := by
  refine ⟨h.tally, fun q => ?_, fun q hq => ?_, h.claimed, h.alone⟩
  · by_cases hqp : q = p
    · subst hqp
      simp only [Function.update_self, hheld]
      exact .claims hcode (Or.inl hmay.2.1) (Nat.zero_le _)
    · simpa [hqp] using h.phase q
  · by_cases hqp : q = p
    · subst hqp
      have hturns := (Sched.busy_turns h.tally (busy_of_claims hcode)).2
      unfold Sched.turns at hturns
      rw [if_pos hmay.1.1, load_eq] at hturns
      refine ⟨fun hmem => ?_, hmay.2.2.2⟩
      have hpos : 0 < (m.sched.queues.ipq (sys.pun q)).count q := List.count_pos_iff.mpr hmem
      omega
    · apply h.busy q
      simpa [Busy, hqp] using hq

omit [DecidableEq Chan] in
/-- It goes on claiming the mutex. -/
theorem Inv.goes_on (h : Inv sys m) (hclaim : m.claim p = some (l, i)) {j : Nat}
    (hj : j ≤ TRIALS_BEFORE_YIELD) :
    Inv sys { m with claim := Function.update m.claim p (some (l, j)) } := by
  have hphase := h.phase p
  rw [hclaim] at hphase
  obtain ⟨hcode, hop, -, hheld⟩ := hphase.claiming
  refine ⟨h.tally, fun q => ?_, fun q hq => ?_, h.claimed, h.alone⟩
  · by_cases hqp : q = p
    · subst hqp
      simp only [Function.update_self, hheld]
      exact .claims hcode hop hj
    · simpa [hqp] using h.phase q
  · apply h.busy q
    by_cases hqp : q = p
    · subst hqp
      exact Or.inl (by rw [hclaim]; simp)
    · simpa [Busy, hqp] using hq

/-- The exchange finds true, and changes nothing but how often it has been tried. -/
theorem exchange_claimed (hclaimed : (m.mutex l).claimed = true) :
    m.exchange p l i = { m with claim := Function.update m.claim p (some (l, i + 1)) } := by
  have hmutex : Function.update m.mutex l ⟨true⟩ = m.mutex := by
    have heq : m.mutex l = ⟨true⟩ := by
      rw [← hclaimed]
    rw [← heq, Function.update_eq_self]
  simp [exchange, Mutex.exchange, hclaimed, hmutex]

omit [DecidableEq Chan] in
/-- A process in `claim_mutex` yields. -/
theorem Inv.yields (h : Inv sys m) (hclaim : m.claim p = some (l, i))
    (hstep : m.sched.step sys (.yield p) = some t) : Inv sys { m with sched := t } := by
  obtain ⟨htally, hothers, hbusy⟩ := h.moved hstep
  have hphase := h.phase p
  rw [hclaim] at hphase
  obtain ⟨hcode, -, hi, hheld⟩ := hphase.claiming
  refine ⟨htally, fun q => ?_, hbusy, h.claimed, h.alone⟩
  by_cases hqp : q = p
  · subst hqp
    cases Sched.step_cases hstep with
    | yield hmay hyield =>
        obtain ⟨hsame, hop⟩ := Sched.yield_self h.tally.settled hmay hyield
        simp only [hclaim, hheld, ← hsame]
        exact .claims (hsame ▸ hcode) hop hi
  · apply hothers q
    intro heq
    exact hqp (Option.some.inj heq).symm

omit [DecidableEq Chan] in
/-- Nobody has a mutex that is free. -/
theorem Inv.free (h : Inv sys m) (hfree : (m.mutex l).claimed = false) (q : Fin N) :
    l ∉ m.held q := by
  intro hmem
  have htrue := (h.claimed l).mpr ⟨q, hmem⟩
  rw [hfree] at htrue
  cases htrue

/-- The exchange finds false. -/
theorem Inv.acquires (h : Inv sys m) (hclaim : m.claim p = some (l, i))
    (hop : (m.sched.live p).op = .none) (hfree : (m.mutex l).claimed = false) :
    Inv sys { m with
      mutex := Function.update m.mutex l ⟨true⟩
      claim := Function.update m.claim p none
      held := Function.update m.held p (l :: m.held p) } := by
  have hphase := h.phase p
  rw [hclaim] at hphase
  obtain ⟨hcode, -, -, hheld⟩ := hphase.claiming
  refine ⟨h.tally, fun q => ?_, fun q hq => ?_, fun k => ?_, fun k a b ha hb => ?_⟩
  · by_cases hqp : q = p
    · subst hqp
      simp only [Function.update_self, hop, hheld]
      exact .inside (Or.inl hcode)
    · simpa [hqp] using h.phase q
  · by_cases hqp : q = p
    · subst hqp
      exact h.busy q (Or.inl (by rw [hclaim]; simp))
    · apply h.busy q
      simpa [Busy, hqp] using hq
  · by_cases hk : k = l
    · subst hk
      simp only [Function.update_self, true_iff]
      exact ⟨p, by simp⟩
    · simp only [Function.update_of_ne hk]
      rw [h.claimed k]
      apply exists_congr
      intro q
      by_cases hqp : q = p
      · subst hqp
        simp [hk]
      · simp [hqp]
  · have hholds : ∀ q, k ∈ Function.update m.held p (l :: m.held p) q →
        q = p ∧ k = l ∨ k ∈ m.held q := by
      intro q hq
      by_cases hqp : q = p
      · subst hqp
        rw [Function.update_self, List.mem_cons] at hq
        exact hq.imp_left fun hk => ⟨rfl, hk⟩
      · rw [Function.update_of_ne hqp] at hq
        exact Or.inr hq
    obtain ⟨rfl, hk⟩ | ha := hholds a ha
    · obtain ⟨hb, -⟩ | hb := hholds b hb
      · exact hb.symm
      · exact absurd (hk ▸ hb) (h.free hfree b)
    · obtain ⟨-, hk⟩ | hb := hholds b hb
      · exact absurd (hk ▸ ha) (h.free hfree a)
      · exact h.alone k a b ha hb

/-- A mutex that a process has is released. -/
theorem Inv.releases (h : Inv sys m) (ht : t.Tally sys) (hheld : m.held p = l :: held)
    (hout : l ∉ held) (hclaim : m.claim p = none)
    (hphase : Phase (sys.pun p) (t.live p).code (t.live p).op none held)
    (hothers : ∀ q, q ≠ p →
      Phase (sys.pun q) (t.live q).code (t.live q).op (m.claim q) (m.held q))
    (hbusy : ∀ q, m.Busy q → q ∉ t.queues.ipq (sys.pun q) ∧ sys.idler (sys.pun q) ≠ q) :
    Inv sys { m.release p l held with sched := t } := by
  refine ⟨ht, fun q => ?_, fun q hq => ?_, fun k => ?_, fun k a b ha hb => ?_⟩
  · by_cases hqp : q = p
    · subst hqp
      simpa [release, hclaim] using hphase
    · simpa [release, hqp] using hothers q hqp
  · by_cases hqp : q = p
    · subst hqp
      exact hbusy q (Or.inr (by rw [hheld]; simp))
    · apply hbusy q
      simpa [release, Busy, hqp] using hq
  · by_cases hk : k = l
    · subst hk
      have hnone : ∀ q, k ∉ Function.update m.held p held q := by
        intro q hq
        by_cases hqp : q = p
        · subst hqp
          rw [Function.update_self] at hq
          exact hout hq
        · rw [Function.update_of_ne hqp] at hq
          exact hqp (h.alone k q p hq (by rw [hheld]; exact List.mem_cons_self))
      simp [release, release_mutex, hnone]
    · simp only [release, Function.update_of_ne hk]
      rw [h.claimed k]
      apply exists_congr
      intro q
      by_cases hqp : q = p
      · subst hqp
        simp [hheld, hk]
      · simp [hqp]
  · have hholds : ∀ q, k ∈ Function.update m.held p held q → k ∈ m.held q := by
      intro q hq
      by_cases hqp : q = p
      · subst hqp
        rw [Function.update_self] at hq
        rw [hheld]
        exact List.mem_cons_of_mem _ hq
      · rw [Function.update_of_ne hqp] at hq
        exact hq
    exact h.alone k a b (hholds a ha) (hholds b hb)

/-- **Every step.** -/
theorem Inv.step (h : Inv sys m) {act : ContentionAct N U Chan}
    (hstep : m.step sys act = some n) : Inv sys n := by
  cases act with
  | sched act =>
      obtain ⟨hpermits, hstep⟩ := Option.ite_none_right_eq_some.mp hstep
      obtain ⟨t, ht, rfl⟩ := Option.map_eq_some_iff.mp hstep
      obtain ⟨htally, hothers, hbusy⟩ := h.moved ht
      refine ⟨htally, fun q => ?_, hbusy, h.claimed, h.alone⟩
      by_cases hq : act.actor = some q
      · exact (h.phase q).acts h.tally.settled hpermits ht hq
      · exact hothers q hq
  | claim_mutex p l =>
      obtain ⟨⟨hclaim, hheld, hmay⟩, hstep⟩ := Option.ite_none_right_eq_some.mp hstep
      obtain rfl := Option.some.inj hstep
      exact h.claims hmay hmay.2.2.1 hheld
  | exchange p =>
      simp only [Contention.step] at hstep
      split at hstep
      next l i hclaim =>
        obtain ⟨⟨hi, hruns, hop⟩, hstep⟩ := Option.ite_none_right_eq_some.mp hstep
        obtain rfl := Option.some.inj hstep
        cases hclaimed : (m.mutex l).claimed with
        | false =>
            simp only [Contention.exchange, Mutex.exchange, hclaimed, if_true]
            exact h.acquires hclaim hop hclaimed
        | true =>
            rw [exchange_claimed hclaimed]
            exact h.goes_on hclaim hi
      next => cases hstep
  | yield p =>
      simp only [Contention.step] at hstep
      split at hstep
      next l i hclaim =>
        obtain ⟨-, hstep⟩ := Option.ite_none_right_eq_some.mp hstep
        obtain ⟨t, ht, rfl⟩ := Option.map_eq_some_iff.mp hstep
        exact (h.yields hclaim ht).goes_on hclaim (Nat.zero_le _)
      next => cases hstep
  | release_mutex p =>
      simp only [Contention.step] at hstep
      split at hstep
      next l held hclaim hheld =>
        obtain ⟨⟨hl, hruns, hop⟩, hstep⟩ := Option.ite_none_right_eq_some.mp hstep
        obtain rfl := Option.some.inj hstep
        have hphase := h.phase p
        rw [hclaim, hheld] at hphase
        obtain ⟨hout, hphase⟩ := hphase.holding hl
        exact h.releases h.tally hheld hout hclaim hphase (fun q _ => h.phase q) h.busy
      next => cases hstep
  | finish p =>
      obtain ⟨⟨hclaim, hheld, hcode, hop⟩, hstep⟩ := Option.ite_none_right_eq_some.mp hstep
      obtain ⟨t, ht, rfl⟩ := Option.map_eq_some_iff.mp hstep
      obtain ⟨htally, hothers, hbusy⟩ := h.moved ht
      have hdead := h.tally.settled.ends ⟨rfl, hop, hcode⟩ ht
      apply h.releases htally hheld (by simp) hclaim _ _ hbusy
      · rw [hdead]
        exact .outside (by simp)
      · intro q hq
        apply hothers q
        intro heq
        exact hq (Option.some.inj heq).symm

end Steps

omit [DecidableEq Chan] in
theorem inv_init (sys : Procs N U) : Inv sys (init sys Chan) where
  tally := Sched.tally_init sys
  phase p := by
    apply Phase.outside
    change (if _ then _ else _ : Code) ≠ _
    split <;> simp
  busy p h := by
    obtain h | h := h
    · exact absurd rfl h
    · exact absurd rfl h
  claimed l := by simp [init, init_mutex]
  alone l p q h := by cases h

/-- What the mutexes are for, and where those are that have them. -/
structure Guarded (sys : Procs N U) (m : Contention N U Chan) : Prop where
  /-- a mutex is claimed exactly as long as a process has it, and that is the only one -/
  claimed : ∀ l, (m.mutex l).claimed = true ↔ ∃ p, l ∈ m.held p
  alone : ∀ l p q, l ∈ m.held p → l ∈ m.held q → p = q
  /-- who claims a mutex with another one has that of the termination stack of its
  processor, and claims `mutex_mem` -/
  nested : ∀ p l i, m.claim p = some (l, i) → m.held p ≠ [] →
    l = .mutex_mem ∧ m.held p = [.termination (sys.pun p)]
  /-- who claims or has a mutex does not wait: it is not marked as waiting, nobody is
  about to schedule it, and it is in for one turn at most, on its processor or in the ready
  queue -/
  ready : ∀ p, m.Busy p → (m.sched.live p).code.busy = true ∧
    p ∉ m.sched.queues.ipq (sys.pun p) ∧ (∀ u, (m.sched.live u).op ≠ .schedule p) ∧
    m.sched.turns sys p ≤ 1

omit [DecidableEq Chan] in
theorem Inv.guarded (h : Inv sys m) : Guarded sys m where
  claimed := h.claimed
  alone := h.alone
  nested p l i hclaim hheld := by
    have hphase := h.phase p
    rw [hclaim] at hphase
    obtain ⟨hcode, -, -, heq⟩ := hphase.claiming
    rw [heq] at hheld ⊢
    generalize (m.sched.live p).code = code at hcode hheld ⊢
    cases code with
    | finishing =>
        cases l with
        | mutex_mem => exact ⟨rfl, rfl⟩
        | _ => cases hcode
    | _ => exact absurd rfl hheld
  ready p hp := by
    have hcode := ((h.phase p).busy hp).1
    obtain ⟨hcalls, hturns⟩ := Sched.busy_turns h.tally hcode
    refine ⟨hcode, (h.busy p hp).1, fun u hop => ?_, hturns⟩
    have hpos : 0 < m.sched.calls p := Finset.card_pos.mpr ⟨u, by simp [hop]⟩
    omega

end Contention

end Cxp
