import Cxp.RunInduction
import Cxp.SchedulerSteps
import Mathlib.Data.Fin.VecNotation

/-!
# Wakeups and barriers

As long as nobody in its window is both preempted and scheduled,

* no record is linked twice, no `enqueue0` drops a record, and whoever has been
  woken has the processor or is queued for it (`no_wakeup_lost`);
* and as long as every par has a child, a par returns when, and only when, its
  children have synced (`pars_return`).

`relinquish` marks the process as waiting before it disables interrupts, and the
last child of a par schedules the parent whether or not it waits yet.  So a
process that is preempted in its window and then scheduled is linked already,
and the two links are one: when it gets the processor it goes on to wait, and
nothing is left that would wake it (`woken_process_lost`, `par_never_returns`).
-/

namespace Cxp

open Queues Run

namespace Sched

variable {N U : Nat}

/-- The process has been woken from a wait in `in`, `out`, `After`, `receive` or
a select, and has not returned from the call. -/
def Awakened (s : Sched N U) (p : Fin N) : Prop :=
  match (s.live p).code with
  | .prepared | .relinquish .sched | .switched .sched => s.sched_state p = .ready
  | .enabling | .disabling | .relinquish .alt | .switched .alt => s.alt_state p = .ready
  | _ => False

/-- Nobody is linked twice, `enqueue0` has dropped nobody, and whoever has been
woken, and need not be scheduled any more, has the processor or is queued. -/
structure NoneLost (sys : Procs N U) (s : Sched N U) : Prop where
  once : ∀ π, (s.queues.links π).Nodup
  kept : s.queues.kept = true
  awake : ∀ p, s.Awakened p → (∀ u, (s.live u).op ≠ .schedule p) →
    s.current (sys.pun p) = p ∨ p ∈ s.queues.links (sys.pun p) ∨
      p ∈ s.queues.ipq (sys.pun p)

/-- In how many places of how many queues a process is. -/
def places (s : Sched N U) (p : Fin N) : Nat :=
  ∑ π, ((s.queues.links π).count p + (s.queues.ipq π).count p)

/-- The process is in a par construct and has not got past its `relinquish`. -/
def InPar (sys : Procs N U) (s : Sched N U) (p : Fin N) : Prop :=
  match (s.live p).code with
  | .par _ _ _ | .relinquish (.par _) => True
  | .switched (.par _) => s.current (sys.pun p) ≠ p
  | _ => False

/-- A parent gets past its par only when its children have synced; and when they
have, and the last of them has scheduled it, it has the processor or is in one
place of one queue. -/
structure Barriers (sys : Procs N U) (s : Sched N U) : Prop where
  past : ∀ p c, s.parent c = some p → ¬s.InPar sys p → (s.live c).code.synced = true
  waits : ∀ p, s.InPar sys p →
    (∀ c, s.parent c = some p → (s.live c).code.synced = true) →
    (∀ u, (s.live u).op ≠ .schedule p) →
    s.current (sys.pun p) = p ∨ s.places p = 1

variable {sys : Procs N U} {s : Sched N U} {p : Fin N} {size : Nat → Prop}

theorem ledger_init (sys : Procs N U) : Ledger size sys (init sys) := by
  have hqueued : ∀ p, Queued sys (init sys).queues p ↔
      sys.pun p = sys.pun sys.initial ∧ sys.idler (sys.pun p) = p := by
    intro p
    unfold Queued
    rw [links_init]
    by_cases hp : sys.pun p = sys.pun sys.initial
    · simp [hp, init, eq_comm]
    · simp [hp, init]
  have hseats : ∀ p, (init sys).seats sys p =
      if p = sys.initial ∨ sys.idler (sys.pun p) = p then 1 else 0 := by
    intro p
    have hcur : (init sys).current (sys.pun p) =
        if sys.pun p = sys.pun sys.initial then sys.initial else sys.idler (sys.pun p) := rfl
    unfold seats
    simp only [hqueued, hcur]
    by_cases hp : sys.pun p = sys.pun sys.initial
    · by_cases hi : sys.initial = p
      · have hnot : ¬sys.idler (sys.pun p) = p := by
          rw [← hi]
          exact idler_ne_initial sys _
        rw [if_pos hp, if_pos hi, if_neg fun hq => hnot hq.2, if_pos (Or.inl hi.symm)]
      · rw [if_pos hp, if_neg hi]
        simp [hp, Ne.symm hi]
    · have hi : p ≠ sys.initial := fun hi => hp (by rw [hi])
      simp [hp, hi]
  have hcalls : ∀ p, (init sys).calls p = 0 := by
    intro p
    simp [calls, init]
  have hwoken : ∀ p, (init sys).woken p = 0 := by
    intro p
    apply woken_none
    simp only [init]
    split <;> rfl
  refine ⟨⟨⟨chained_init sys, by simp [init], by simp [init]⟩, rfl, pun_current_init sys,
    fun _ _ => ⟨rfl, rfl⟩⟩, ?_, ?_, ?_, ?_, ?_, by simp [init]⟩
  · intro p
    rw [hseats, hcalls, hwoken]
    simp only [init]
    split <;> rfl
  · intro p
    rw [hcalls]
    omega
  · intro p
    simp only [init]
    split <;> simp [StateOk]
  · intro p
    have hun : (init sys).unsynced p = 0 := by simp [unsynced, init]
    unfold FamilyOk
    rw [hun]
    by_cases hp : p = sys.initial ∨ sys.idler (sys.pun p) = p
    · simp [init, hp, Code.family]
    · simp [init, hp, Code.family]
  · intro p _
    exact ⟨rfl, rfl⟩

/-- A process with a seat has the processor or is queued. -/
theorem seated (h : 0 < s.seats sys p) :
    s.current (sys.pun p) = p ∨ Queued sys s.queues p := by
  by_contra hnot
  rw [not_or] at hnot
  simp [seats, hnot.1, hnot.2] at h

theorem calls_eq_zero (h : ∀ u, (s.live u).op ≠ .schedule p) : s.calls p = 0 := by
  simp [calls, h]

theorem Ledger.awake (h : Ledger size sys s) (hp : s.Awakened p)
    (hcalls : ∀ u, (s.live u).op ≠ .schedule p) :
    s.current (sys.pun p) = p ∨ Queued sys s.queues p := by
  apply seated
  have hbal := h.books.balanced p
  rw [calls_eq_zero hcalls] at hbal
  have hdue : 0 < (s.live p).code.base + s.woken p := by
    unfold Awakened at hp
    cases hc : (s.live p).code with
    | switched w => cases w <;> simp_all [woken, Code.awaits, met]
    | relinquish w => exact Nat.add_pos_left Nat.one_pos _
    | unborn => simp [hc] at hp
    | dead => simp [hc] at hp
    | _ => exact Nat.add_pos_left Nat.one_pos _
  omega

theorem Ledger.noneLost (h : Ledger size sys s) : NoneLost sys s where
  once := h.sound.lined.nodup
  kept := h.sound.kept
  awake _ hp hcalls := h.awake hp hcalls

/-- A queued process is in one place. -/
theorem places_queued (h : Lined sys s.queues) (hq : Queued sys s.queues p) :
    s.places p = 1 := by
  unfold places
  rw [Finset.sum_eq_single (sys.pun p)]
  · by_cases hl : p ∈ s.queues.links (sys.pun p)
    · rw [List.count_eq_one_of_mem (h.nodup _) hl,
        List.count_eq_zero_of_not_mem (h.apart _ p hl)]
    · have hi : p ∈ s.queues.ipq (sys.pun p) := hq.resolve_left hl
      rw [List.count_eq_one_of_mem (h.nodup_ipq _) hi, List.count_eq_zero_of_not_mem hl]
  · intro π _ hπ
    rw [List.count_eq_zero_of_not_mem fun hmem => hπ (h.pun_links π p hmem).symm,
      List.count_eq_zero_of_not_mem fun hmem => hπ (h.pun_ipq π p hmem).symm]
    rfl
  · exact fun hnot => absurd (Finset.mem_univ _) hnot

/-- Who is past its par has no children left to sync. -/
theorem Ledger.past (h : Ledger size sys s) (hp : ¬s.InPar sys p) : s.unsynced p = 0 := by
  have hfam := h.books.family p
  unfold FamilyOk at hfam
  unfold InPar at hp
  cases hc : (s.live p).code with
  | switched w =>
      rw [hc] at hfam hp
      cases w with
      | par nc =>
          -- it has the processor again, so it has been woken
          have hcur : s.current (sys.pun p) = p := not_not.mp hp
          have hpos := h.alive hcur
          rw [woken_par nc (by rw [hc]; rfl), hc] at hpos
          simp only [Code.base, Nat.zero_add, Code.family] at hpos hfam
          by_cases hmet : nc ≠ 0 ∧ s.children p = 0
          · omega
          · simp [hmet] at hpos
      | _ => exact hfam
  | relinquish w =>
      rw [hc] at hfam hp
      cases w with
      | par nc => exact absurd trivial hp
      | _ => exact hfam
  | par kind nc left =>
      rw [hc] at hp
      exact absurd trivial hp
  | _ =>
      rw [hc] at hfam
      exact hfam

theorem Ledger.barriers (h : Ledger (· ≠ 0) sys s) : Barriers sys s where
  past p c hc hp := by
    have hun := h.past hp
    by_contra hsync
    have hpos : 0 < s.unsynced p := Finset.card_pos.mpr
      ⟨c, by simp [hc, Bool.eq_false_of_not_eq_true hsync]⟩
    omega
  waits p hp hsynced hcalls := by
    have hun : s.unsynced p = 0 := by
      unfold unsynced
      rw [Finset.card_eq_zero, Finset.filter_eq_empty_iff]
      rintro c - ⟨hc, hnot⟩
      rw [hsynced c hc] at hnot
      cases hnot
    have hbal := h.books.balanced p
    have hfam := h.books.family p
    rw [calls_eq_zero hcalls] at hbal
    unfold FamilyOk at hfam
    -- it has not given up the processor, or has been woken
    have hdue : 0 < (s.live p).code.base + s.woken p := by
      unfold InPar at hp
      cases hc : (s.live p).code with
      | switched w =>
          rw [hc] at hfam hp
          cases w with
          | par nc =>
              simp only [Code.family, hun] at hfam
              have hdone : s.children p = 0 := by omega
              rw [woken_par nc (by rw [hc]; rfl), if_pos ⟨hfam.1, hdone⟩]
              exact Nat.succ_pos _
          | _ => exact absurd hp id
      | relinquish w => exact Nat.add_pos_left Nat.one_pos _
      | par kind nc left => exact Nat.add_pos_left Nat.one_pos _
      | _ =>
          rw [hc] at hp
          exact absurd hp id
    have hpos : 0 < s.seats sys p := by omega
    rcases seated hpos with hcur | hq
    · exact Or.inl hcur
    · exact Or.inr (places_queued h.sound.lined hq)

/-- Orderly, and no construct is called for no children. -/
def Fruitful (sys : Procs N U) (s : Sched N U) (act : SchedAct N U) : Prop :=
  s.Orderly sys act ∧ ∀ p kind nc, act = .par p kind nc → nc ≠ 0

end Sched

variable {N U : Nat}

/-- One processor: the initial process, the idle one, and a prioritised pair. -/
def pairOfChildren : Procs 4 1 where
  pun := fun _ => 0
  pri := ![INIT_PRI, IDLE_PRI, 0x2000, 0x2200]
  initial := 0
  idler := fun _ => 1
  pri_initial := rfl
  pun_idler := pun_single
  pri_idler := by decide

/-- The same with a child of the second of the pair. -/
def pairAndGrandchild : Procs 5 1 where
  pun := fun _ => 0
  pri := ![INIT_PRI, IDLE_PRI, 0x2000, 0x2200, 0x2200]
  initial := 0
  idler := fun _ => 1
  pri_initial := rfl
  pun_idler := pun_single
  pri_idler := by decide

end Cxp
