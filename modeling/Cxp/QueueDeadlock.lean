import Cxp.InterruptDelivery
import Cxp.WaitGraph
import Mathlib.Data.Fin.VecNotation

/-!
# Units that wait for each other's queues (`sched.c`, `ipq.m`)

`ipq_add` goes round its loop while the queue is full, and `schedule` calls it
with interrupts disabled.  The owner of the queue can then do nothing but wait
in its turn, when it is in such a loop itself.

Where the queue is full, a compare-exchange that was prepared before may still
succeed.  A queue is taken to be closed when it is full and no such one is to
come: then only its owner lets an adder out of the loop.
-/

namespace Cxp

open Relation Run WaitGraph

namespace IPQueue

variable {Pun Proc : Type}

/-- `u` is in the loop of `ipq_add`. -/
def Spinning (r : IPQueue Pun Proc) (u : Pun) : Prop :=
  match r.adder u with
  | .loadAdd _ | .loadRem _ _ | .cas _ _ => True
  | .idle | .store _ _ => False

/-- The queue is full, and no claim can be made. -/
def Closed (r : IPQueue Pun Proc) : Prop :=
  r.nextRem = slotAfter r.nextAdd ∧ ∀ u p, r.adder u ≠ .cas p r.nextAdd

/-- The claim that `u` is about to make closes the queue. -/
def Fills (r : IPQueue Pun Proc) (u : Pun) : Prop :=
  (∃ p, r.adder u = .cas p r.nextAdd) ∧
    r.nextRem = slotAfter (slotAfter r.nextAdd) ∧
    ∀ v, v ≠ u → ∀ p, r.adder v ≠ .cas p (slotAfter r.nextAdd)

instance (r : IPQueue Pun Proc) (u : Pun) : Decidable (r.Spinning u) := by
  unfold Spinning
  split <;> infer_instance

variable [DecidableEq Pun] {r r' : IPQueue Pun Proc} {u : Pun} {p : Proc}

/-- The beginning of a call. -/
theorem begins (h : r.step (.add u p) = some r') :
    (r'.Closed ↔ r.Closed) ∧ r'.Spinning u ∧
      ∀ v, v ≠ u → (r'.Spinning v ↔ r.Spinning v) := by
  obtain ⟨hidle, h⟩ := Option.ite_none_right_eq_some.mp h
  cases h
  refine ⟨?_, ?_, ?_⟩
  · unfold Closed
    apply and_congr_right
    intro _
    apply forall_congr'
    intro v
    by_cases hv : v = u
    · subst hv
      cases hpc : r.adder v <;> simp [hpc] at hidle ⊢
    · simp [hv]
  · simp [Spinning]
  · intro v hv
    simp [Spinning, hv]

/-- What the next operation of an adder does: it claims a slot, or neither
closes nor opens the queue, and lets nobody into the loop or out of it. -/
theorem adds (h : r.ipq_add u = some r') :
    (∃ p, r.adder u = .cas p r.nextAdd ∧
      r' = { r with
        nextAdd := slotAfter r.nextAdd
        adder := Function.update r.adder u (.store p r.nextAdd)
        claimed := r.claimed ++ [p] }) ∨
    (∀ p, r.adder u ≠ .cas p r.nextAdd) ∧ (r'.Closed ↔ r.Closed) ∧
      ∀ v, r'.Spinning v ↔ r.Spinning v := by
  have hspins : ∀ {pc : AddPc Proc} {q : Nat → Option Proc},
      ((match pc with
        | .loadAdd _ | .loadRem _ _ | .cas _ _ => True
        | .idle | .store _ _ => False) ↔ r.Spinning u) →
      ∀ v, ({ r with que := q, adder := Function.update r.adder u pc } :
        IPQueue Pun Proc).Spinning v ↔ r.Spinning v := by
    intro pc q hpc v
    by_cases hv : v = u
    · subst hv
      simpa [Spinning] using hpc
    · simp [Spinning, hv]
  have hcloses : ∀ {pc : AddPc Proc} {q : Nat → Option Proc},
      (r.nextRem = slotAfter r.nextAdd → ∀ p, pc ≠ .cas p r.nextAdd) →
      (∀ p, r.adder u ≠ .cas p r.nextAdd) →
      (({ r with que := q, adder := Function.update r.adder u pc } :
        IPQueue Pun Proc).Closed ↔ r.Closed) := by
    intro pc q hpc hu
    unfold Closed
    apply and_congr_right
    intro hfull
    apply forall_congr'
    intro v
    by_cases hv : v = u
    · subst hv
      simp [hpc hfull, hu]
    · simp [hv]
  unfold ipq_add at h
  cases hpc : r.adder u with
  | idle => simp [hpc] at h
  | loadAdd p =>
      simp only [hpc] at h
      cases h
      right
      refine ⟨by simp, hcloses (by simp) (by simp [hpc]), hspins ?_⟩
      simp [Spinning, hpc]
  | loadRem p a =>
      simp only [hpc] at h
      right
      split at h
      · cases h
        refine ⟨by simp, hcloses (by simp) (by simp [hpc]), hspins ?_⟩
        simp [Spinning, hpc]
      · rename_i hopen
        cases h
        refine ⟨by simp, hcloses ?_ (by simp [hpc]), hspins ?_⟩
        · intro hfull p' heq
          cases heq
          exact hopen hfull
        · simp [Spinning, hpc]
  | cas p a =>
      simp only [hpc] at h
      split at h
      · rename_i heq
        subst heq
        cases h
        exact Or.inl ⟨p, rfl, rfl⟩
      · rename_i hne
        cases h
        right
        have hother : ∀ p', AddPc.cas p a ≠ .cas p' r.nextAdd := by
          intro p' heq
          cases heq
          exact hne rfl
        refine ⟨hother, hcloses (by simp) (by rwa [hpc]), hspins ?_⟩
        simp [Spinning, hpc]
  | store p a =>
      simp only [hpc] at h
      cases h
      right
      refine ⟨by simp, hcloses (by simp) (by simp [hpc]), hspins ?_⟩
      simp [Spinning, hpc]

/-- The claim itself. -/
theorem closed_claim (hu : r.adder u = .cas p r.nextAdd) :
    ({ r with
      nextAdd := slotAfter r.nextAdd
      adder := Function.update r.adder u (.store p r.nextAdd)
      claimed := r.claimed ++ [p] } : IPQueue Pun Proc).Closed ↔ r.Fills u := by
  unfold Closed Fills
  constructor
  · intro h
    obtain ⟨hfull, hnone⟩ := h
    refine ⟨⟨p, hu⟩, hfull, ?_⟩
    intro v hv p'
    simpa [hv] using hnone v p'
  · intro h
    obtain ⟨-, hfull, hnone⟩ := h
    refine ⟨hfull, ?_⟩
    intro v p'
    by_cases hv : v = u
    · subst hv
      simp
    · simpa [hv] using hnone v hv p'

end IPQueue

/-- Not in `ipq_add`. -/
def Station.Free {N U : Nat} : Station N U → Prop
  | .add _ _ => False
  | _ => True

theorem Station.Free.ne {N U : Nat} {station : Station N U} (h : station.Free)
    (ρ : Fin U) (handler : Bool) : station ≠ .add ρ handler := by
  intro heq
  rw [heq] at h
  exact h

/-- The unit that takes the step. -/
def UnitAct.unit {N U : Nat} : UnitAct N U → Fin U
  | .schedule π _ | .enqueue π _ | .block π | .yield π | .terminate π
  | .interprocessor π | .interrupt π | .ready π _ | .go π => π

namespace Units

variable {N U : Nat} (sys : Procs N U) (s : Units N U)

/-- Unit `π` goes round the loop of `ipq_add`, with interrupts disabled, because
the queue of unit `ρ` is full. -/
def WaitsFor (π ρ : Fin U) : Prop :=
  π ≠ ρ ∧ (∃ handler, s.station π = .add ρ handler) ∧
    (s.ring ρ).Spinning π ∧ (s.ring ρ).Closed

instance (π ρ : Fin U) : Decidable (s.WaitsFor π ρ) := by
  unfold WaitsFor IPQueue.Closed
  infer_instance

/-- Some units wait for each other's queues. -/
def Deadlocked : Prop :=
  Stuck s.WaitsFor

/-- Where unit `π` begins to wait, the owner of the queue does not wait for it
already. -/
def CallsFreely (π : Fin U) (proc : Fin N) : Prop :=
  sys.pun proc ≠ π → (s.ring (sys.pun proc)).Closed →
    ¬ ReflTransGen s.WaitsFor (sys.pun proc) π

/-- Where the claim of unit `π` closes the queue of `ρ`, that unit does not wait
already for one of those in the loop, who begin to wait. -/
def FillsFreely (π ρ : Fin U) : Prop :=
  (s.ring ρ).Fills π → ∀ σ, σ ≠ π → (∃ handler, s.station σ = .add ρ handler) →
    (s.ring ρ).Spinning σ → ¬ ReflTransGen s.WaitsFor ρ σ

/-- The condition on a step: nobody begins to wait for a unit that waits for
it, directly or through others. -/
def ClosesNoCycle : UnitAct N U → Prop
  | .schedule π proc => s.CallsFreely sys π proc
  | .go π =>
      match s.station π with
      | .schedule proc => s.CallsFreely sys π proc
      | .add ρ _ => s.FillsFreely π ρ
      | _ => True
  | _ => True

/-- Calls of `ipq_add` are for other units, and no process is switched away
from or interrupted inside one. -/
structure Placed : Prop where
  away : ∀ π ρ handler, s.station π = .add ρ handler → π ≠ ρ
  saved : ∀ p, (s.saved p).Free
  interrupted : ∀ p, (s.interrupted p).Free

/-- Unit `u` does something that has nothing to do with `ipq_add`; it may
remove entries from its own queue. -/
structure Elsewhere (t : Units N U) (u : Fin U) : Prop where
  before : (s.station u).Free
  after : (t.station u).Free
  ring : ∀ ρ, ρ ≠ u → t.ring ρ = s.ring ρ
  others : ∀ π, π ≠ u → t.station π = s.station π
  placed : t.Placed

/-- What a step of unit `u` is to the calls of `ipq_add`; `C` is the condition
on the step. -/
inductive Does (t : Units N U) (u : Fin U) (C : Prop) : Prop
  | elsewhere (h : s.Elsewhere t u) (hC : C)
  | begins (proc : Fin N) (handler : Bool) (r : IPQueue (Fin U) (Fin N))
      (hne : sys.pun proc ≠ u) (hfree : (s.station u).Free)
      (hr : (s.ring (sys.pun proc)).step (.add u proc) = some r)
      (ht : t.ring = Function.update s.ring (sys.pun proc) r)
      (hst : t.station = Function.update s.station u (.add (sys.pun proc) handler))
      (hplaced : t.Placed) (hC : C ↔ s.CallsFreely sys u proc)
  | adds (ρ : Fin U) (handler : Bool) (r : IPQueue (Fin U) (Fin N))
      (hst : s.station u = .add ρ handler)
      (hr : (s.ring ρ).ipq_add u = some r)
      (ht : t.ring = Function.update s.ring ρ r)
      (hothers : ∀ π, π ≠ u → t.station π = s.station π)
      (hown : t.station u = .add ρ handler ∨
        r.adder u = .idle ∧ (t.station u).Free)
      (hplaced : t.Placed) (hC : C ↔ s.FillsFreely u ρ)

variable {sys : Procs N U} {s t : Units N U} {u π ρ : Fin U} {proc : Fin N}
  {station : Station N U}

theorem placed_init (sys : Procs N U) : (init sys).Placed := by
  constructor
  · intro π ρ handler hst
    cases hst
  · intro p
    trivial
  · intro p
    trivial

theorem free_back (handler : Bool) : (Station.back handler : Station N U).Free := by
  cases handler <;> trivial

theorem Placed.free_update (h : s.Placed) {p : Fin N} (hst : station.Free) (q : Fin N) :
    (Function.update s.saved p station q).Free := by
  by_cases hq : q = p
  · subst hq
    rwa [Function.update_self]
  · rw [Function.update_of_ne hq]
    exact h.saved q

theorem Placed.away_update (h : s.Placed)
    (hst : ∀ ρ handler, station = .add ρ handler → u ≠ ρ) (π ρ : Fin U) (handler : Bool)
    (heq : Function.update s.station u station π = .add ρ handler) : π ≠ ρ := by
  by_cases hπ : π = u
  · subst hπ
    rw [Function.update_self] at heq
    exact hst ρ handler heq
  · rw [Function.update_of_ne hπ] at heq
    exact h.away π ρ handler heq

/-- The unit goes to another place outside `ipq_add`. -/
theorem Placed.elsewhere (h : s.Placed) (hs : (s.station u).Free)
    (hring : ∀ ρ, ρ ≠ u → t.ring ρ = s.ring ρ)
    (hstation : t.station = Function.update s.station u station)
    (hfree : station.Free) (hsaved : ∀ p, (t.saved p).Free)
    (hint : ∀ p, (t.interrupted p).Free) : s.Elsewhere t u := by
  refine ⟨hs, ?_, hring, ?_, ?_, hsaved, hint⟩
  · rw [hstation, Function.update_self]
    exact hfree
  · intro π hπ
    rw [hstation, Function.update_of_ne hπ]
  · intro π ρ handler hst
    rw [hstation] at hst
    exact h.away_update (fun σ b heq => absurd heq (hfree.ne σ b)) π ρ handler hst

/-- It stays where it is. -/
theorem Placed.stays (h : s.Placed) (hs : (s.station u).Free)
    (hring : ∀ ρ, ρ ≠ u → t.ring ρ = s.ring ρ) (hstation : t.station = s.station)
    (hsaved : t.saved = s.saved) (hint : t.interrupted = s.interrupted) :
    s.Elsewhere t u := by
  apply h.elsewhere hs hring _ hs
  · intro p
    rw [hsaved]
    exact h.saved p
  · intro p
    rw [hint]
    exact h.interrupted p
  · rw [hstation, Function.update_eq_self]

theorem Elsewhere.trans {m : Units N U} (h : s.Elsewhere m u) (h' : m.Elsewhere t u) :
    s.Elsewhere t u := by
  refine ⟨h.before, h'.after, ?_, ?_, h'.placed⟩
  · intro ρ hρ
    exact (h'.ring ρ hρ).trans (h.ring ρ hρ)
  · intro π hπ
    exact (h'.others π hπ).trans (h.others π hπ)

/-- The unit is given to another process. -/
theorem Placed.dispatches (h : s.Placed) {m : Units N U}
    (hstep : m.dispatch sys π proc = some t) (hs : (s.station π).Free)
    (hring : m.ring = s.ring) (hstation : m.station = s.station)
    (hsaved : ∀ p, (m.saved p).Free) (hint : m.interrupted = s.interrupted) :
    s.Elsewhere t π := by
  obtain ⟨-, rfl⟩ := dispatch_some hstep
  refine h.elsewhere hs ?_ ?_ (hsaved proc) hsaved ?_
  · intro ρ _
    exact congrFun hring ρ
  · simp only [Units.goto]
    rw [hstation]
  · intro p
    simp only [Units.goto]
    rw [hint]
    exact h.interrupted p

theorem Placed.schedule0 (h : s.Placed) {handler : Bool} (hs : (s.station π).Free)
    (hstep : s.schedule0 sys π proc handler = some t) :
    Does sys s t π (s.CallsFreely sys π proc) := by
  unfold Units.schedule0 at hstep
  by_cases hpun : sys.pun proc = π
  · rw [if_pos hpun] at hstep
    apply Does.elsewhere
    · simp only at hstep
      split at hstep
      · cases hstep
        exact h.elsewhere hs (fun _ _ => rfl) rfl (free_back handler) h.saved
          h.interrupted
      · exact h.dispatches hstep hs rfl rfl (h.free_update (free_back handler)) rfl
    · intro hne
      exact absurd hpun hne
  · rw [if_neg hpun] at hstep
    simp only at hstep
    obtain ⟨r, hr, rfl⟩ := Option.map_eq_some_iff.mp hstep
    refine .begins proc handler r hpun hs hr rfl rfl ?_ Iff.rfl
    refine ⟨h.away_update ?_, h.saved, h.interrupted⟩
    intro ρ b heq
    cases heq
    exact Ne.symm hpun

theorem Placed.taken (h : s.Placed) {taker : Taker} (hs : (s.station π).Free)
    (hstep : s.taken sys π taker = some t) : s.Elsewhere t π := by
  have henable : (Station.enable : Station N U).Free := trivial
  cases taker with
  | relinquish =>
      simp only [Units.taken] at hstep
      split at hstep
      · cases hstep
      · exact h.dispatches hstep hs rfl rfl (h.free_update henable) rfl
  | yield =>
      simp only [Units.taken] at hstep
      split at hstep
      · exact h.dispatches hstep hs rfl rfl (h.free_update henable) rfl
      · cases hstep
        exact h.elsewhere hs (fun _ _ => rfl) rfl henable h.saved h.interrupted
  | preempt =>
      simp only [Units.taken] at hstep
      split at hstep
      · cases hstep
      · exact h.dispatches hstep hs rfl rfl h.saved rfl
  | terminate =>
      simp only [Units.taken] at hstep
      split at hstep
      · cases hstep
      · exact h.dispatches hstep hs rfl rfl h.saved rfl

/-- Removing from its own queue. -/
theorem Placed.onRing (h : s.Placed) (hs : (s.station π).Free)
    (r : IPQueue (Fin U) (Fin N)) : s.Elsewhere (s.onRing π r) π := by
  refine h.stays hs ?_ rfl rfl rfl
  intro ρ hρ
  simp [Units.onRing, hρ]

theorem Placed.adds (h : s.Placed) {handler : Bool}
    (hst : s.station π = .add ρ handler) (hstep : s.go sys π = some t) :
    Does sys s t π (s.FillsFreely π ρ) := by
  simp only [Units.go, hst] at hstep
  obtain ⟨r, hr, rfl⟩ := Option.map_eq_some_iff.mp hstep
  split
  · rename_i hidle
    rw [if_pos rfl]
    have hfree : (Station.send ρ handler : Station N U).Free := trivial
    refine .adds ρ handler r hst hr rfl ?_ (Or.inr ⟨hidle, ?_⟩) ?_ Iff.rfl
    · intro σ hσ
      simp [Units.goto, Units.onRing, hσ]
    · simpa [Units.goto] using hfree
    · exact ⟨h.away_update fun σ b heq => absurd heq (hfree.ne σ b), h.saved, h.interrupted⟩
  · rw [if_neg Bool.false_ne_true]
    exact .adds ρ handler r hst hr rfl (fun _ _ => rfl) (Or.inl hst)
      ⟨h.away, h.saved, h.interrupted⟩ Iff.rfl

theorem Placed.goto (h : s.Placed) (hs : (s.station π).Free) (hst : station.Free) :
    s.Elsewhere (s.goto π station) π :=
  h.elsewhere hs (fun _ _ => rfl) rfl hst h.saved h.interrupted

/-- The unit goes on in something else than `ipq_add` and `schedule0`. -/
theorem Placed.goes_on (h : s.Placed) (hs : (s.station π).Free)
    (hsched : ∀ proc, s.station π ≠ .schedule proc) (hstep : s.go sys π = some t) :
    s.Elsewhere t π := by
  have hrem := h.onRing hs (s.ring π).ipq_remove
  unfold Units.go at hstep
  cases hst : s.station π with
  | user =>
      rw [hst] at hstep
      cases hstep
  | blocking =>
      rw [hst] at hstep
      cases hstep
      exact h.goto hs trivial
  | add ρ handler => exact absurd hst (hs.ne ρ handler)
  | send ρ handler =>
      rw [hst] at hstep
      cases hstep
      exact h.elsewhere hs (fun _ _ => rfl) rfl (free_back handler) h.saved h.interrupted
  | take taker =>
      rw [hst] at hstep
      simp only at hstep
      split at hstep
      · cases hstep
        exact hrem
      · exact hrem.trans (hrem.placed.taken hs hstep)
      · cases hstep
        exact hrem.trans (hrem.placed.stays hs (fun _ _ => rfl) rfl rfl rfl)
  | enable =>
      rw [hst] at hstep
      cases hstep
      exact h.goto hs trivial
  | loop =>
      rw [hst] at hstep
      simp only at hstep
      split at hstep
      · cases hstep
        exact hrem
      · cases hstep
        exact hrem.trans (hrem.placed.goto hs trivial)
      · cases hstep
        exact hrem.trans (hrem.placed.goto hs trivial)
  | schedule proc => exact absurd hst (hsched proc)
  | handling =>
      rw [hst] at hstep
      cases hstep
      exact h.goto hs trivial
  | preempt =>
      rw [hst] at hstep
      cases hstep
      apply h.goto hs
      split <;> trivial
  | exit =>
      rw [hst] at hstep
      cases hstep
      exact h.goto hs (h.interrupted (s.current π))

theorem Placed.go (h : s.Placed) (hstep : s.go sys π = some t) :
    Does sys s t π (s.ClosesNoCycle sys (.go π)) := by
  unfold ClosesNoCycle
  simp only
  split
  · rename_i proc hst
    simp only [Units.go, hst] at hstep
    apply h.schedule0 _ hstep
    rw [hst]
    trivial
  · rename_i ρ handler hst
    exact h.adds hst hstep
  · rename_i hsched hadd
    have hs : (s.station π).Free := by
      cases hst : s.station π with
      | add ρ handler => exact absurd hst (hadd ρ handler)
      | _ => trivial
    exact .elsewhere (h.goes_on hs hsched hstep) trivial

theorem free_of_enabled (hen : (s.station π).enabled = true) : (s.station π).Free := by
  cases hst : s.station π <;> simp [hst, Station.enabled] at hen <;> trivial

/-- The unit enters a handler. -/
theorem Placed.enters (h : s.Placed) (hen : (s.station π).enabled = true)
    (hst : station.Free) (pending : Fin U → Bool) :
    s.Elsewhere ({ s with pending := pending }.enter π station) π := by
  have hs := free_of_enabled hen
  refine h.elsewhere hs (fun _ _ => rfl) rfl hst (h.free_update hs) ?_
  intro q
  by_cases hq : q = s.current π
  · subst hq
    simpa [enter, Units.goto] using hs
  · simpa [enter, Units.goto, hq] using h.interrupted q

/-- Readying a process is no call. -/
theorem Does.of_wake {q : Fin N} {C : Prop} (h : Does sys (s.wake q) t u C) :
    Does sys s t u C := by
  cases h with
  | elsewhere h hC =>
      exact .elsewhere ⟨h.before, h.after, h.ring, h.others, h.placed⟩ hC
  | begins proc handler r hne hfree hr ht hst hplaced hC =>
      exact .begins proc handler r hne hfree hr ht hst hplaced hC
  | adds ρ handler r hst hr ht hothers hown hplaced hC =>
      exact .adds ρ handler r hst hr ht hothers hown hplaced hC

/-- **What each step is to the calls of `ipq_add`.** -/
theorem Placed.step (h : s.Placed) {a : UnitAct N U} (hstep : s.step sys a = some t) :
    Does sys s t a.unit (s.ClosesNoCycle sys a) := by
  have hbusy : ∀ {π}, s.Busy sys π → (s.station π).Free := by
    intro π hb
    exact free_of_enabled (by rw [hb.1]; rfl)
  cases a with
  | schedule π proc =>
      obtain ⟨hg, hstep⟩ := Option.ite_none_right_eq_some.mp hstep
      have hw : (s.wake proc).Placed := ⟨h.away, h.saved, h.interrupted⟩
      exact (hw.schedule0 (hbusy hg.1) hstep).of_wake
  | enqueue π proc =>
      obtain ⟨hg, hstep⟩ := Option.ite_none_right_eq_some.mp hstep
      cases hstep
      exact .elsewhere (h.stays (hbusy hg.1) (fun _ _ => rfl) rfl rfl rfl) trivial
  | block π =>
      obtain ⟨hg, hstep⟩ := Option.ite_none_right_eq_some.mp hstep
      cases hstep
      exact .elsewhere (h.elsewhere (hbusy hg) (fun _ _ => rfl) rfl trivial h.saved
        h.interrupted) trivial
  | yield π =>
      obtain ⟨hg, hstep⟩ := Option.ite_none_right_eq_some.mp hstep
      cases hstep
      exact .elsewhere (h.goto (hbusy hg) trivial) trivial
  | terminate π =>
      obtain ⟨hg, hstep⟩ := Option.ite_none_right_eq_some.mp hstep
      cases hstep
      exact .elsewhere (h.goto (hbusy hg) trivial) trivial
  | interprocessor π =>
      obtain ⟨hg, hstep⟩ := Option.ite_none_right_eq_some.mp hstep
      cases hstep
      have hloop : (Station.loop : Station N U).Free := trivial
      exact .elsewhere (h.enters hg.1 hloop _) trivial
  | interrupt π =>
      obtain ⟨hen, hstep⟩ := Option.ite_none_right_eq_some.mp hstep
      cases hstep
      have hhandling : (Station.handling : Station N U).Free := trivial
      exact .elsewhere (h.enters hen hhandling s.pending) trivial
  | ready π proc =>
      obtain ⟨hg, hstep⟩ := Option.ite_none_right_eq_some.mp hstep
      cases hstep
      have hs : (s.station π).Free := by
        rw [hg.1]
        trivial
      exact .elsewhere (h.stays hs (fun _ _ => rfl) rfl rfl rfl) trivial
  | go π => exact h.go hstep

theorem Does.placed {C : Prop} (h : Does sys s t u C) : t.Placed := by
  cases h with
  | elsewhere h _ => exact h.placed
  | begins _ _ _ _ _ _ _ _ hplaced _ => exact hplaced
  | adds _ _ _ _ _ _ _ _ hplaced _ => exact hplaced

/-- A unit outside `ipq_add` waits for nobody, so whoever comes to wait for it
closes no cycle. -/
theorem Elsewhere.edges (h : s.Elsewhere t u) (hw : t.WaitsFor π ρ) :
    s.WaitsFor π ρ ∨ ρ = u ∧ ¬ ReflTransGen s.WaitsFor u π := by
  obtain ⟨hne, ⟨handler, hst⟩, hspin, hclosed⟩ := hw
  have hπ : π ≠ u := by
    intro heq
    rw [heq] at hst
    exact h.after.ne _ _ hst
  rw [h.others π hπ] at hst
  by_cases hρ : ρ = u
  · right
    refine ⟨hρ, ?_⟩
    intro hreach
    obtain heq | ⟨σ, ⟨-, ⟨b, hu⟩, -⟩, -⟩ := hreach.cases_head
    · exact hπ heq.symm
    · exact h.before.ne _ _ hu
  · left
    rw [h.ring ρ hρ] at hspin hclosed
    exact ⟨hne, ⟨handler, hst⟩, hspin, hclosed⟩

/-- **A step that closes no cycle deadlocks nobody.** -/
theorem Does.not_deadlocked {C : Prop} (h : Does sys s t u C) (hC : C)
    (hdead : ¬ s.Deadlocked) : ¬ t.Deadlocked := by
  cases h with
  | elsewhere h _ =>
      exact not_stuck_of_edges_to u hdead fun π ρ hw => h.edges hw
  | begins proc handler r hne hfree hr ht hst hplaced hiff =>
      obtain ⟨hclose, -, hspins⟩ := IPQueue.begins hr
      apply not_stuck_of_edges_to (sys.pun proc) hdead
      intro π ρ hw
      obtain ⟨hπρ, ⟨b, hπ⟩, hspin, hclosed⟩ := hw
      rw [hst] at hπ
      rw [ht] at hspin hclosed
      by_cases hπu : π = u
      · subst hπu
        rw [Function.update_self] at hπ
        cases hπ
        rw [Function.update_self] at hclosed
        exact Or.inr ⟨rfl, hiff.mp hC hne (hclose.mp hclosed)⟩
      · left
        rw [Function.update_of_ne hπu] at hπ
        by_cases hρ : ρ = sys.pun proc
        · subst hρ
          rw [Function.update_self] at hspin hclosed
          exact ⟨hπρ, ⟨b, hπ⟩, (hspins π hπu).mp hspin, hclose.mp hclosed⟩
        · rw [Function.update_of_ne hρ] at hspin hclosed
          exact ⟨hπρ, ⟨b, hπ⟩, hspin, hclosed⟩
  | adds τ handler r hst hr ht hothers hown hplaced hiff =>
      apply not_stuck_of_edges_to τ hdead
      intro π ρ hw
      obtain ⟨hπρ, ⟨b, hπ⟩, hspin, hclosed⟩ := hw
      have hπs : s.station π = .add ρ b := by
        by_cases hπu : π = u
        · subst hπu
          obtain hsame | ⟨-, hfree⟩ := hown
          · rw [hst, ← hsame, hπ]
          · exact absurd hπ (hfree.ne ρ b)
        · rw [← hothers π hπu, hπ]
      rw [ht] at hspin hclosed
      by_cases hρ : ρ = τ
      · subst hρ
        rw [Function.update_self] at hspin hclosed
        obtain ⟨p, hcas, rfl⟩ | ⟨-, hclose, hspins⟩ := IPQueue.adds hr
        · right
          have hπu : π ≠ u := by
            intro heq
            simp [heq, IPQueue.Spinning] at hspin
          have hfills := (IPQueue.closed_claim hcas).mp hclosed
          refine ⟨rfl, hiff.mp hC hfills π hπu ⟨b, hπs⟩ ?_⟩
          simpa [IPQueue.Spinning, hπu] using hspin
        · left
          exact ⟨hπρ, ⟨b, hπs⟩, (hspins π).mp hspin, hclose.mp hclosed⟩
      · left
        rw [Function.update_of_ne hρ] at hspin hclosed
        exact ⟨hπρ, ⟨b, hπs⟩, hspin, hclosed⟩

/-- **A step that closes a cycle deadlocks those on it.** -/
theorem Does.deadlocked {C : Prop} (h : Does sys s t u C) (hC : ¬ C)
    (hs : s.Placed) : t.Deadlocked := by
  cases h with
  | elsewhere _ hC' => exact absurd hC' hC
  | begins proc handler r hne hfree hr ht hst hplaced hiff =>
      obtain ⟨hclose, hspin, hspins⟩ := IPQueue.begins hr
      rw [hiff] at hC
      simp only [CallsFreely, Classical.not_imp, not_not] at hC
      obtain ⟨-, hclosed, hreach⟩ := hC
      refine stuck_of_edge ?_ ?_ hreach
      · intro π ρ hw
        obtain ⟨hπρ, ⟨b, hπ⟩, hspin, hclosed⟩ := hw
        have hπu : π ≠ u := by
          intro heq
          rw [heq] at hπ
          exact hfree.ne ρ b hπ
        refine ⟨hπρ, ⟨b, ?_⟩, ?_⟩
        · rw [hst, Function.update_of_ne hπu, hπ]
        · rw [ht]
          by_cases hρ : ρ = sys.pun proc
          · subst hρ
            rw [Function.update_self]
            exact ⟨(hspins π hπu).mpr hspin, hclose.mpr hclosed⟩
          · rw [Function.update_of_ne hρ]
            exact ⟨hspin, hclosed⟩
      · refine ⟨Ne.symm hne, ⟨handler, ?_⟩, ?_⟩
        · rw [hst, Function.update_self]
        · rw [ht, Function.update_self]
          exact ⟨hspin, hclose.mpr hclosed⟩
  | adds τ handler r hst hr ht hothers hown hplaced hiff =>
      rw [hiff] at hC
      simp only [FillsFreely, Classical.not_imp, not_forall, not_not] at hC
      obtain ⟨hfills, σ, hσu, ⟨b, hσ⟩, hspin, hreach⟩ := hC
      obtain ⟨p, hcas⟩ := hfills.1
      have hr' : r = { s.ring τ with
          nextAdd := slotAfter (s.ring τ).nextAdd
          adder := Function.update (s.ring τ).adder u (.store p (s.ring τ).nextAdd)
          claimed := (s.ring τ).claimed ++ [p] } := by
        obtain ⟨p', hcas', rfl⟩ | ⟨hnone, -⟩ := IPQueue.adds hr
        · rw [hcas] at hcas'
          cases hcas'
          rfl
        · exact absurd hcas (hnone p)
      refine stuck_of_edge ?_ ?_ hreach
      · intro π ρ hw
        obtain ⟨hπρ, ⟨b, hπ⟩, hspin, hclosed⟩ := hw
        -- until now the queue of `τ` was open
        have hρ : ρ ≠ τ := by
          intro heq
          rw [heq] at hclosed
          exact hclosed.2 u p hcas
        have hπu : π ≠ u := by
          intro heq
          rw [heq, hst] at hπ
          cases hπ
          exact hρ rfl
        refine ⟨hπρ, ⟨b, ?_⟩, ?_⟩
        · rw [hothers π hπu, hπ]
        · rw [ht, Function.update_of_ne hρ]
          exact ⟨hspin, hclosed⟩
      · refine ⟨hs.away σ τ b hσ, ⟨b, ?_⟩, ?_⟩
        · rw [hothers σ hσu, hσ]
        · rw [ht, Function.update_self, hr']
          refine ⟨?_, (IPQueue.closed_claim hcas).mpr hfills⟩
          simpa [IPQueue.Spinning, hσu] using hspin

/-- Units that wait for each other go on doing so, and nothing is removed from
their queues. -/
theorem Does.blocked {C : Prop} (h : Does sys s t u C) {S : Set (Fin U)}
    (hS : Blocked s.WaitsFor S) :
    Blocked t.WaitsFor S ∧ ∀ ρ ∈ S, (t.ring ρ).returned = (s.ring ρ).returned := by
  -- a unit of `S` is in `ipq_add`
  have hout : (s.station u).Free → ∀ π ∈ S, π ≠ u := by
    intro hfree π hπ heq
    obtain ⟨ρ, -, -, ⟨b, hst⟩, -⟩ := hS π hπ
    rw [heq] at hst
    exact hfree.ne ρ b hst
  cases h with
  | elsewhere h _ =>
      have hring : ∀ ρ ∈ S, t.ring ρ = s.ring ρ := by
        intro ρ hρ
        exact h.ring ρ (hout h.before ρ hρ)
      constructor
      · apply hS.mono
        intro π hπ ρ hρ hw
        unfold WaitsFor
        rw [h.others π (hout h.before π hπ), hring ρ hρ]
        exact hw
      · intro ρ hρ
        rw [hring ρ hρ]
  | begins proc handler r hne hfree hr ht hst hplaced hiff =>
      obtain ⟨hclose, -, hspins⟩ := IPQueue.begins hr
      constructor
      · apply hS.mono
        intro π hπ ρ _ hw
        obtain ⟨hπρ, hstation, hspin, hclosed⟩ := hw
        unfold WaitsFor
        rw [hst, ht, Function.update_of_ne (hout hfree π hπ)]
        by_cases hρ : ρ = sys.pun proc
        · subst hρ
          rw [Function.update_self]
          exact ⟨hπρ, hstation, (hspins π (hout hfree π hπ)).mpr hspin,
            hclose.mpr hclosed⟩
        · rw [Function.update_of_ne hρ]
          exact ⟨hπρ, hstation, hspin, hclosed⟩
      · intro ρ _
        rw [ht]
        by_cases hρ : ρ = sys.pun proc
        · subst hρ
          rw [Function.update_self]
          obtain ⟨-, hr⟩ := Option.ite_none_right_eq_some.mp hr
          cases hr
          rfl
        · rw [Function.update_of_ne hρ]
  | adds τ handler r hst hr ht hothers hown hplaced hiff =>
      constructor
      · apply hS.mono
        intro π hπ ρ _ hw
        obtain ⟨hπρ, ⟨b, hπst⟩, hspin, hclosed⟩ := hw
        have hring : (t.ring ρ).Spinning π ∧ (t.ring ρ).Closed := by
          rw [ht]
          by_cases hρ : ρ = τ
          · subst hρ
            rw [Function.update_self]
            obtain ⟨p, hcas, -⟩ | ⟨-, hclose, hspins⟩ := IPQueue.adds hr
            · exact absurd hcas (hclosed.2 u p)
            · exact ⟨(hspins π).mpr hspin, hclose.mpr hclosed⟩
          · rw [Function.update_of_ne hρ]
            exact ⟨hspin, hclosed⟩
        refine ⟨hπρ, ⟨b, ?_⟩, hring⟩
        by_cases hπu : π = u
        · subst hπu
          rw [hst] at hπst
          cases hπst
          obtain hsame | ⟨hidle, -⟩ := hown
          · exact hsame
          · have hspin' := hring.1
            rw [ht, Function.update_self] at hspin'
            simp [IPQueue.Spinning, hidle] at hspin'
        · rw [hothers π hπu, hπst]
      · intro ρ _
        rw [ht]
        by_cases hρ : ρ = τ
        · subst hρ
          rw [Function.update_self]
          unfold IPQueue.ipq_add at hr
          repeat' split at hr
          all_goals cases hr
          all_goals rfl
        · rw [Function.update_of_ne hρ]

end Units

variable {N U : Nat} (sys : Procs N U)

/-- **A deadlock is for good.**  From a state in which units wait for each other,
they do so in every state of every run, and their queues are never drained. -/
theorem deadlock_is_final {s : Units N U} (hs : s.Placed) {S : Set (Fin U)}
    (hS : Blocked s.WaitsFor S) (acts : List (UnitAct N U)) :
    Throughout (Units.step sys)
      (fun t => Blocked t.WaitsFor S ∧
        ∀ ρ ∈ S, (t.ring ρ).returned = (s.ring ρ).returned) s acts := by
  refine throughout_of_along
    (I := fun t => t.Placed ∧ Blocked t.WaitsFor S ∧
      ∀ ρ ∈ S, (t.ring ρ).returned = (s.ring ρ).returned)
    ?_ (fun t h => h.2) (along_true s acts) ⟨hs, hS, fun _ _ => rfl⟩
  intro m a t h _ hstep
  obtain ⟨hplaced, hblocked, hreturned⟩ := h
  have hdoes := hplaced.step hstep
  obtain ⟨hblocked', hsame⟩ := hdoes.blocked hblocked
  refine ⟨hdoes.placed, hblocked', ?_⟩
  intro ρ hρ
  exact (hsame ρ hρ).trans (hreturned ρ hρ)

/-- **When units never wait for each other's full queues for good.**  In every run
of any number of units, no set of units is deadlocked exactly when nobody begins
to wait for the queue of a unit that waits for it already, directly or through
others. -/
theorem no_deadlock_iff (acts : List (UnitAct N U))
    (hrun : (exec (Units.step sys) (Units.init sys) acts).isSome) :
    Throughout (Units.step sys) (fun s => ¬ s.Deadlocked) (Units.init sys) acts ↔
      Along (Units.step sys) (Units.ClosesNoCycle sys) (Units.init sys) acts := by
  obtain ⟨t, ht⟩ := Option.isSome_iff_exists.mp hrun
  have hinit : ¬ (Units.init sys).Deadlocked := by
    intro h
    obtain ⟨S, ⟨π, hπ⟩, hS⟩ := h
    obtain ⟨ρ, -, -, ⟨handler, hst⟩, -⟩ := hS π hπ
    cases hst
  apply throughout_iff_along (I := fun s => s.Placed ∧ ¬ s.Deadlocked) _ _ _ ht
    ⟨Units.placed_init sys, hinit⟩
  · intro s a t h hC hstep
    have hdoes := h.1.step hstep
    exact ⟨hdoes.placed, hdoes.not_deadlocked hC h.2⟩
  · intro s h
    exact h.2
  · intro s a t h hC hstep hdead
    exact hdead ((h.1.step hstep).deadlocked hC h.1)

/-- An initial and an idle process on unit 0, an idle process and another one on
unit 1. -/
def oneCall : Procs 4 2 := oneEntry

/-- A process of unit 1 readied by unit 0. -/
theorem no_deadlock_one_call :
    Throughout (Units.step oneCall) (fun s => ¬ s.Deadlocked) (Units.init oneCall)
      [.schedule 0 3, .go 0, .go 0, .go 0] := by
  apply (no_deadlock_iff oneCall _ (by decide)).mpr
  -- the queue is open, and one claim does not close it
  refine ⟨?_, ?_⟩
  · intro _ hclosed
    exact absurd hclosed.1 (by decide)
  intro _ hstep
  cases hstep
  iterate 2
    refine ⟨?_, ?_⟩
    · intro hfills
      obtain ⟨⟨p, hp⟩, -⟩ := hfills
      cases hp
    intro _ hstep
    cases hstep
  refine ⟨?_, ?_⟩
  · intro hfills
    exact absurd hfills.2.1 (by decide)
  intro _ _
  trivial

/-- On each unit a process that runs and an idle one, and five that wait. -/
def fiveEach : Procs 14 2 where
  pun := ![0, 0, 1, 1, 1, 1, 1, 1, 1, 0, 0, 0, 0, 0]
  pri := ![0, 0xfff, 0xfff, 5, 5, 5, 5, 5, 5, 5, 5, 5, 5, 5]
  initial := 0
  idler := ![1, 2]
  pri_initial := rfl
  pun_idler := by decide
  pri_idler := by decide

/-- A call of `schedule` by unit `π` for another unit, from the beginning to the
end. -/
def scheduleAtOnce (π : Fin 2) (proc : Fin 14) : List (UnitAct 14 2) :=
  .schedule π proc :: List.replicate 6 (.go π)

/-- Unit 1 is given something to run.  Then each of the units readies five
processes of the other, before either takes the interrupt that is pending. -/
def fiveFromEach : List (UnitAct 14 2) :=
  scheduleAtOnce 0 3 ++ .interprocessor 1 :: List.replicate 5 (.go 1) ++
    [4, 5, 6, 7].flatMap (scheduleAtOnce 0) ++
    [9, 10, 11, 12].flatMap (scheduleAtOnce 1) ++ [.schedule 0 8, .schedule 1 13]

/-- Each of the two then waits for the queue of the other. -/
theorem queues_deadlock :
    ¬ ∀ acts : List (UnitAct 14 2),
      (exec (Units.step fiveEach) (Units.init fiveEach) acts).isSome →
      Throughout (Units.step fiveEach) (fun s => ¬ s.Deadlocked) (Units.init fiveEach)
        acts := by
  intro hall
  have hrun : (exec (Units.step fiveEach) (Units.init fiveEach) fiveFromEach).any
      (fun s => decide (s.WaitsFor 0 1 ∧ s.WaitsFor 1 0)) = true := by decide +kernel
  have hsome : (exec (Units.step fiveEach) (Units.init fiveEach) fiveFromEach).isSome := by
    cases hs : exec (Units.step fiveEach) (Units.init fiveEach) fiveFromEach with
    | none =>
        rw [hs] at hrun
        cases hrun
    | some s => rfl
  obtain ⟨s, hfree, hwait⟩ := (hall fiveFromEach hsome).last_any hrun
  have hboth := of_decide_eq_true hwait
  apply hfree
  refine ⟨Set.univ, ⟨0, trivial⟩, ?_⟩
  intro π _
  match π with
  | 0 => exact ⟨1, trivial, hboth.1⟩
  | 1 => exact ⟨0, trivial, hboth.2⟩

end Cxp
